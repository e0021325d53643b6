import Alcy.Parser.Edges
import Alcy.Parser.Refusing

/-! # Match arms

The arms are read back exactly when no body ends in a bare `ret` before a comma: `ret` stops before a
`;` and a `}`, but not before the separator that arms usually have. -/
namespace Alcy.Parser
open Alcy.Ast Alcy.Diag
open Alcy.Lexer (Token TokenKind)
open PM

variable {inp : Input} {m : Mode} {ls : List Lexeme} {s s' : PState} {back : ExprRec} {M fuel : Nat}
  {α β : Type} {p : PM α} {f : α → PM β}

/-! ## Bodies before their separators -/

/-- A `ret` without a value is the last of it. -/
def ExprText.endsInRet : ExprText → Bool
  | .unary _ inner | .borrow _ inner => inner.endsInRet
  | .binary _ _ rhs => rhs.endsInRet
  | .returnExpr none => true
  | .returnExpr (some value) => value.endsInRet
  | .range _ _ (some stop) => stop.endsInRet
  | _ => false

theorem ExprText.ends_comma (allow : Bool) : ∀ e : ExprText,
    e.ends allow .comma = (e.castStops .comma && !e.endsInRet)
  | .unary _ inner | .borrow _ inner => inner.ends_comma allow
  | .binary _ _ rhs => rhs.ends_comma allow
  | .returnExpr (some value) => value.ends_comma allow
  | .range _ _ (some stop) => stop.ends_comma allow
  | .cast _ type => (Bool.and_true (type.stops .comma)).symm
  | .path _ => by cases allow <;> rfl
  | .field _ name => Bool.or_true (indexName name)
  | .ifExpr _ _ elseBlock => Bool.or_true elseBlock.isSome
  | .range _ op none => Bool.or_true (op == .dotDot)
  | .returnExpr none => rfl
  | .literal _ _ | .struct _ _ _ _ | .tuple _ _ | .paren _ | .call _ _ _ | .methodCall _ _ _ _ | .index _ _
  | .question _ | .matchExpr _ _ | .loop _ | .whileExpr _ _ | .block _ | .breakExpr | .continueExpr => rfl

/-- Every body ends before a `;` and before the closing brace. -/
theorem ExprText.ends_closed {k : TokenKind} (hk : k = .semicolon ∨ k = .rBrace) (allow : Bool) :
    ∀ e : ExprText, e.ends allow k = true
  | .unary _ inner | .borrow _ inner => inner.ends_closed hk allow
  | .binary _ _ rhs => rhs.ends_closed hk allow
  | .returnExpr (some value) => by
    have hvalue := value.ends_closed hk allow
    rw [ExprText.ends, hvalue, Bool.and_true]
    rcases hk with rfl | rfl <;> rfl
  | .range _ _ (some stop) => stop.ends_closed hk allow
  | .cast _ type => by
    rcases hk with rfl | rfl <;>
      exact type.stops_of_ne TokenKind.noConfusion TokenKind.noConfusion TokenKind.noConfusion
  | .path _ => by rcases hk with rfl | rfl <;> cases allow <;> rfl
  | .field _ name => by rcases hk with rfl | rfl <;> exact Bool.or_true (indexName name)
  | .ifExpr _ _ elseBlock => by rcases hk with rfl | rfl <;> exact Bool.or_true elseBlock.isSome
  | .range _ op none => by rcases hk with rfl | rfl <;> exact Bool.or_true (op == .dotDot)
  | .returnExpr none => by rcases hk with rfl | rfl <;> rfl
  | .literal _ _ | .struct _ _ _ _ | .tuple _ _ | .paren _ | .call _ _ _ | .methodCall _ _ _ _ | .index _ _
  | .question _ | .matchExpr _ _ | .loop _ | .whileExpr _ _ | .block _ | .breakExpr | .continueExpr => rfl

namespace ArmText

/-- Pattern and body are legible by themselves, and a comma after the body is not part of a type. -/
def partsLegible (allow : Bool) (arm : ArmText) : Bool :=
  arm.pattern.legible && arm.body.legible allow && arm.body.castStops arm.nextKind

/-- Every arm but the last has a separator. -/
def listWritten (allow : Bool) : List ArmText → Bool
  | [] => true
  | arm :: arms =>
    arm.partsLegible allow && (arms.isEmpty || arm.nextKind != .rBrace) && listWritten allow arms

/-- The body does not end in a bare `ret` before a comma. -/
def stopsInTime (arm : ArmText) : Bool := arm.nextKind != .comma || !arm.body.endsInRet

theorem nextKind_cases (arm : ArmText) :
    arm.nextKind = .comma ∨ arm.nextKind = .semicolon ∨ arm.nextKind = .rBrace := by
  obtain ⟨pattern, body, _ | ⟨_ | _, separators⟩⟩ := arm
  · exact .inr (.inr rfl)
  · exact .inr (.inl rfl)
  · exact .inl rfl

theorem legible_eq (arm : ArmText) (allow : Bool) (h : arm.partsLegible allow = true) :
    arm.legible allow arm.nextKind = arm.stopsInTime := by
  have hnext := arm.nextKind_cases
  rw [stopsInTime]
  obtain ⟨pattern, body, separators⟩ := arm
  simp only [partsLegible, ArmText.pattern, ArmText.body, Bool.and_eq_true] at h
  rw [ArmText.legible, h.1.1, h.1.2, Bool.and_self, Bool.true_and]
  rcases hnext with hcomma | hclosed
  · rw [hcomma] at h ⊢
    rw [body.ends_comma, h.2]
    rfl
  · rw [body.ends_closed hclosed]
    rcases hclosed with hclosed | hclosed <;> rw [hclosed] <;> rfl

theorem listLegible_of_stops {allow : Bool} {arms : List ArmText} (h : listWritten allow arms = true)
    (hstops : arms.all stopsInTime = true) : listLegible allow arms = true := by
  induction arms with
  | nil => rfl
  | cons arm arms ih =>
    rw [listWritten, Bool.and_eq_true, Bool.and_eq_true] at h
    rw [List.all_cons, Bool.and_eq_true] at hstops
    rw [listLegible, arm.legible_eq allow h.1.1, hstops.1, h.1.2, ih h.2 hstops.2]
    rfl

end ArmText

/-! ## A body refused at the comma -/

/-- Before a comma only a bare `ret` goes on: it asks for a value, and none begins with a comma. -/
theorem comma_edge (hnext : nextKind ls = .comma) {depth : Nat} (hdepth : ls.length < depth + 1) :
    Edge (Refused m) inp m ls (inp.exprLevel depth) where
  path path mark s hends hs := by
    rw [hnext, ExprText.ends_comma] at hends
    exact Bool.noConfusion hends
  ret s _ hs := by
    have := List.length_pos_iff.2 hs.stream.ne_nil
    obtain ⟨depth, rfl⟩ : ∃ d, depth = d + 1 := ⟨depth - 1, by omega⟩
    exact parseRange_refuses (stays_exprLevel depth) hs (by rw [hnext]; rfl)
  range op s hends hs := by
    rw [hnext] at hends
    exact Bool.noConfusion ((Bool.or_true (op == .dotDot)).symm.trans hends)
  free := by rw [hnext]; rfl
  noElse := by rw [hnext]; exact TokenKind.noConfusion

/-! ## Errors that stay -/

/-- A value only with more in the bag than the mode has. -/
def Spoiled (m : Mode) : Judgement := fun _ r =>
  ∀ a s', r = .ok (some a, s') → m.bag.length < s'.bag.length

theorem spoiled_of_bag (hbag : m.bag.length < s.bag.length) (hp : Stays BagGrows p) :
    Falls (Spoiled m) p s := by
  intro a s' hrun
  exact Nat.lt_of_lt_of_le hbag (hp s (some a) s' hrun).length_le

theorem Falls.grow (h : Falls (Spoiled m) p s) (hf : ∀ a, Stays BagGrows (f a)) :
    Falls (Spoiled m) (p >>= f) s := by
  intro b s' hrun
  obtain ⟨a, u, hp, hrest⟩ := bind_some hrun
  exact Nat.lt_of_lt_of_le (h a u hp) (hf a u (some b) s' hrest).length_le

theorem Falls.growLoop {step : α → PM (α × Bool)} {acc : α} (h : Falls (Spoiled m) (step acc) s)
    (hstep : ∀ acc, Stays BagGrows (step acc)) : Falls (Spoiled m) (loopM step (fuel + 1) acc) s := by
  intro a s' hrun
  unfold loopM at hrun
  rcases hr : step acc s with e | ⟨_ | ⟨acc', _ | _⟩, u⟩ <;> simp only [hr] at hrun
  · cases hrun
  · cases hrun
  · cases hrun
    exact h _ _ hr
  · split at hrun
    · cases hrun
    · have hgrow : u.bag <+: s'.bag := Stays.loopM hstep fuel acc' u (some a) s' hrun
      exact Nat.lt_of_lt_of_le (h _ _ hr) hgrow.length_le

/-- What is refused is left out, and its error stays. -/
theorem orSynchronize_spoiled (h : Refuses m p s) : Falls (Spoiled m) (inp.orSynchronize p) s := by
  obtain ⟨u, hrun, hbag⟩ := h
  have hattempt : PM.attempt p s = .ok (some none, u) := by rw [PM.attempt, hrun]
  exact .step hattempt (spoiled_of_bag hbag (stays_synchronize.bind fun _ => .pure))

theorem Spoiled.not_at {Q : α → Prop} (h : Falls (Spoiled m) p s) :
    ¬ Gives p s fun a s' => Q a ∧ At inp m ls s' := by
  rintro ⟨a, s', hrun, -, hs'⟩
  have hbag := h a s' hrun
  rw [hs'.bag] at hbag
  exact Nat.lt_irrefl _ hbag

/-! ## The arms of a match -/

theorem matchRound_spoiled
    (hmiss : ∀ ls, nextKind ls = .comma → Misses (Refused m) inp m ls M 0 back.expr)
    {arm : ArmText} {acc : List MatchArm} (hparts : arm.partsLegible m.allow = true)
    (hstops : arm.stopsInTime = false)
    (hnext : nextKind (arm.separators.map separatorText ++ ls) = arm.nextKind)
    (hs : At inp m (arm.lexemes ++ ls) s) (hM : (arm.lexemes ++ ls).length < M) :
    Falls (Spoiled m) (inp.matchRound back acc) s := by
  rw [ArmText.stopsInTime, Bool.or_eq_false_iff, bne_eq_false_iff_eq] at hstops
  rw [hstops.1] at hnext
  simp only [ArmText.partsLegible, Bool.and_eq_true] at hparts
  rw [hstops.1] at hparts
  obtain ⟨pattern, body, separators⟩ := arm
  have htext : (ArmText.mk pattern body separators).lexemes ++ ls =
      pattern.lexemes ++ symbol .fatArrow :: (body.lexemes ++ (separators.map separatorText ++ ls)) := by
    simp [ArmText.lexemes]
  rw [htext] at hs hM
  obtain ⟨l, tl, hl, hstart, -⟩ := pattern.begin
  have hs' : At inp m (l :: (tl ++ symbol .fatArrow :: (body.lexemes ++
      (separators.map separatorText ++ ls)))) s := by
    rwa [hl, List.cons_append] at hs
  have hends : body.ends m.allow .comma = false := by
    have hret : (!body.endsInRet) = false := hstops.2
    rw [body.ends_comma, hret, Bool.and_false]
  have harm : Refuses m (inp.parseArm back) s := by
    refine .bind (parsePattern_takes hparts.1.1 rfl _ s hs hM rfl) fun pattern' s1 h1 => ?_
    refine .expect h1.2 TokenKind.noConfusion fun s2 (hs2 : At inp m
      (body.lexemes ++ (separators.map separatorText ++ ls)) s2) => ?_
    have hlt : (body.lexemes ++ (separators.map separatorText ++ ls)).length < M := by
      simp only [List.length_append, List.length_cons] at hM ⊢
      omega
    exact Refuses.left (hmiss _ hnext body s2 (Nat.zero_le _) hparts.1.2 (hnext ▸ hends)
      (hnext ▸ hparts.2) hs2 hlt)
  refine .unclosed hs' TokenKind.noConfusion (startsPattern_ne hstart rfl) (startsPattern_ne hstart rfl) ?_
  refine .decline hs' TokenKind.noConfusion (startsPattern_ne hstart rfl) (.no Bool.false_ne_true ?_)
  refine .decline hs' TokenKind.noConfusion (startsPattern_ne hstart rfl) (.no Bool.false_ne_true ?_)
  refine (orSynchronize_spoiled harm).grow fun arm => ?_
  cases arm <;> exact .pure

/-- The induction is on the arms: before the first body that does not stop in time they are read as
they are. -/
theorem matchRounds_spoiled (h : ExprsRead inp M back) (hm : m.bank = 0) (hstays : ExprStays BagGrows back)
    (hmiss : ∀ ls, nextKind ls = .comma → Misses (Refused m) inp m ls M 0 back.expr)
    {arms : List ArmText} {acc : List MatchArm} (hwritten : ArmText.listWritten m.allow arms = true)
    (hstops : arms.all ArmText.stopsInTime = false)
    (hs : At inp m (ArmText.listLexemes arms ++ symbol .rBrace :: ls) s)
    (hM : (ArmText.listLexemes arms ++ symbol .rBrace :: ls).length < M)
    (hfuel : (ArmText.listLexemes arms ++ symbol .rBrace :: ls).length < fuel) :
    Falls (Spoiled m) (loopM (inp.matchRound back) fuel acc) s := by
  induction arms generalizing s acc fuel with
  | nil => exact Bool.noConfusion hstops
  | cons arm arms ih =>
    simp only [ArmText.listWritten, Bool.and_eq_true, Bool.or_eq_true, List.isEmpty_iff,
      bne_iff_ne] at hwritten
    rw [ArmText.listLexemes, List.append_assoc] at hs hM hfuel
    have hnext := nextKind_separators arm arms ls hwritten.1.2
    cases hstop : arm.stopsInTime with
    | false =>
      obtain ⟨fuel, rfl⟩ := Nat.exists_eq_succ_of_ne_zero (Nat.ne_zero_of_lt hfuel)
      exact Falls.growLoop (matchRound_spoiled hmiss hwritten.1.1 hstop hnext hs hM)
        fun acc => stays_matchRound hstays acc
    | true =>
      rw [List.all_cons, hstop, Bool.true_and] at hstops
      have hlegible : arm.legible m.allow arm.nextKind = true := by
        rw [arm.legible_eq m.allow hwritten.1.1, hstop]
      obtain ⟨arm', s1, fuel1, -, hs1, hfuel1, hloop⟩ :=
        matchArm_reaches h hm acc hlegible hnext hs hM hfuel
      have hM1 : (ArmText.listLexemes arms ++ symbol .rBrace :: ls).length < M := by
        simp only [List.length_append, List.length_cons] at hM ⊢
        omega
      rw [Falls, Comes, hloop]
      exact ih hwritten.2 hstops hs1 hM1 hfuel1

theorem exprRec_misses (hm : m.bank = 0) (hnext : nextKind ls = .comma) :
    Misses (Refused m) inp m ls (inp.loopFuel + 1) 0 inp.exprRec.expr :=
  (exprLevel_misses (refused_lasting m) hm (fun _ hdepth => comma_edge hnext hdepth) inp.loopFuel).expr

/-- `match x { a => ret;}`, with the separator of the only arm. -/
def retInput (separator : TokenKind) : Input where
  tokens := [⟨.match, ⟨0, 0, 5⟩⟩, ⟨.ident, ⟨0, 6, 1⟩⟩, ⟨.lBrace, ⟨0, 8, 1⟩⟩, ⟨.ident, ⟨0, 10, 1⟩⟩,
    ⟨.fatArrow, ⟨0, 12, 2⟩⟩, ⟨.ret, ⟨0, 15, 3⟩⟩, ⟨separator, ⟨0, 18, 1⟩⟩, ⟨.rBrace, ⟨0, 19, 1⟩⟩,
    ⟨.eof, ⟨0, 20, 0⟩⟩]
  bytes := [109, 97, 116, 99, 104, 32, 120, 32, 123, 32, 97, 32, 61, 62, 32, 114, 101, 116, 59, 125]
  file := 0

def retMatch (comma : Bool) : ExprText :=
  .matchExpr (.path ⟨"x", []⟩) [.mk (.name "a") (.returnExpr none) [comma]]

end Alcy.Parser
