import Alcy.Parser.Keeping
import Alcy.Parser.PatternText

/-! # What reads back is legible

The other direction of reading back, for types. A generic type that ends in a `>>` of its own takes
a comma that follows it as a comma between its arguments, so that it comes out with an argument more.
A type that comes out as it was spelled is therefore legible, and so is every list of types. -/
namespace Alcy.Parser
open Alcy.Ast Alcy.Diag
open Alcy.Lexer (Token TokenKind)
open PM

variable {inp : Input} {m : Mode} {M : Nat} {ls rest K : List Lexeme} {s s' : PState} {α β : Type}

/-! ## Runs that gave something -/

theorem after_some {p : PM α} {mark : Nat} {a : α} (h : p.after mark s = .ok (some a, s')) :
    p s = .ok (some a, s') := by
  rw [PM.after] at h
  split at h
  · cases h
  · exact h

/-- The result of a parse function that puts its span in. -/
theorem spanned_some {mark : Nat} {f : Span → α} {a : α}
    (h : (inp.spanFrom mark >>= fun span => pure (f span)) s = .ok (some a, s')) :
    ∃ span, a = f span := by
  obtain ⟨span, u, -, h⟩ := bind_some h
  cases h
  exact ⟨span, rfl⟩

/-- A loop that only appends. -/
theorem loopM_extends {step : List α → PM (List α × Bool)}
    (hstep : ∀ acc r s s', step acc s = .ok (some r, s') → acc <+: r.1) {fuel : Nat}
    {acc as : List α} (h : loopM step fuel acc s = .ok (some as, s')) : acc <+: as := by
  induction fuel generalizing acc s with
  | zero => cases h
  | succ fuel ih =>
    rcases loopM_some h with hstop | ⟨acc', u, hround, hrest⟩
    · exact hstep acc _ s s' hstop
    · exact (hstep acc _ s u hround).trans (ih hrest)

/-- The element that a list has got is the next one of the list it becomes. -/
theorem element_of_extends {τ : Type} {see : α → τ} {acc as : List α} {x : α} {t : τ} {ts : List τ}
    (h : acc ++ [x] <+: as) (heq : as.map see = acc.map see ++ t :: ts) : see x = t := by
  obtain ⟨tail, rfl⟩ := h
  rw [List.append_assoc, List.map_append] at heq
  exact (List.cons.inj (List.append_cancel_left heq)).1

/-! ## Rounds -/

theorem restRound_extends {close : TokenKind} {item : PM α} (acc : List α) (r : List α × Bool)
    (s s' : PState) (h : inp.restRound close item acc s = .ok (some r, s')) : acc <+: r.1 := by
  obtain ⟨c, u1, -, h⟩ := bind_some h
  obtain ⟨e, u2, -, h⟩ := bind_some h
  split at h
  · cases h
    exact List.prefix_rfl
  · obtain ⟨x, u3, -, h⟩ := bind_some h
    obtain ⟨b, u4, -, h⟩ := bind_some h
    cases b <;> cases h <;> exact List.prefix_append acc [x]

theorem listRound_some {closed : PM Bool} {item : PM α} {acc : List α} {r : List α × Bool}
    (h : inp.listRound closed item acc s = .ok (some r, s')) :
    ∃ x u, item s = .ok (some x, u) ∧ r.1 = acc ++ [x] := by
  obtain ⟨x, u, hx, h⟩ := bind_some h
  obtain ⟨b, u1, -, h⟩ := bind_some h
  refine ⟨x, u, hx, ?_⟩
  cases b with
  | false => cases h; rfl
  | true =>
    obtain ⟨c, u2, -, h⟩ := bind_some h
    cases c <;> cases h <;> rfl

theorem listRounds_extend {closed : PM Bool} {item : PM α} {fuel : Nat} {acc as : List α}
    (h : loopM (inp.listRound closed item) fuel acc s = .ok (some as, s')) : acc <+: as := by
  refine loopM_extends (fun acc r s s' hround => ?_) h
  obtain ⟨x, -, -, hx⟩ := listRound_some hround
  exact hx ▸ List.prefix_append acc [x]

/-- A list that goes on has at least one element more. -/
theorem listRounds_more {closed : PM Bool} {item : PM α} {fuel : Nat} {acc as : List α}
    (h : loopM (inp.listRound closed item) fuel acc s = .ok (some as, s')) :
    acc.length < as.length := by
  cases fuel with
  | zero => cases h
  | succ fuel =>
    have hlt : ∀ {r : List α × Bool} {u : PState},
        inp.listRound closed item acc s = .ok (some r, u) → acc.length < r.1.length := by
      intro r u hr
      obtain ⟨x, -, -, hx⟩ := listRound_some hr
      rw [hx, List.length_append]
      exact Nat.lt_succ_self _
    rcases loopM_some h with hstop | ⟨acc', u, hround, hrest⟩
    · exact hlt hstop
    · exact Nat.lt_of_lt_of_le (hlt hround) (listRounds_extend hrest).length_le

/-- The first round, when a comma comes after its element. -/
theorem listRounds_comma {closed : PM Bool} {item : PM α} {fuel : Nat} {acc as : List α} {x : α}
    {u v w : PState} {c : Bool}
    (h : loopM (inp.listRound closed item) (fuel + 1) acc s = .ok (some as, s'))
    (hx : item s = .ok (some x, u)) (hcomma : inp.accept .comma u = .ok (some true, v))
    (hclosed : closed v = .ok (some c, w)) :
    if c then as = acc ++ [x] ∧ s' = w
    else loopM (inp.listRound closed item) fuel (acc ++ [x]) w = .ok (some as, s') := by
  have hround : inp.listRound closed item acc s = .ok (some (acc ++ [x], !c), w) := by
    rw [Input.listRound, bind_run, hx]
    simp only
    rw [bind_run, hcomma]
    simp only [if_true]
    rw [bind_run, hclosed]
    cases c <;> rfl
  rcases loopM_some h with hstop | ⟨acc', u', hgo, hrest⟩
  · rw [hround] at hstop
    cases c with
    | true => cases hstop; exact ⟨rfl, rfl⟩
    | false => cases hstop
  · rw [hround] at hgo
    cases c with
    | true => cases hgo
    | false => cases hgo; exact hrest

/-- Every list has the element of its first round. -/
theorem listRounds_first {closed : PM Bool} {item : PM α} {fuel : Nat} {acc as : List α}
    (h : loopM (inp.listRound closed item) (fuel + 1) acc s = .ok (some as, s')) :
    ∃ x u, item s = .ok (some x, u) ∧ acc ++ [x] <+: as := by
  rcases loopM_some h with hstop | ⟨acc', v, hgo, hrest⟩
  · obtain ⟨x, u, hx, heq⟩ := listRound_some hstop
    exact ⟨x, u, hx, heq ▸ List.prefix_rfl⟩
  · obtain ⟨x, u, hx, heq⟩ := listRound_some hgo
    exact ⟨x, u, hx, heq ▸ listRounds_extend hrest⟩

/-! ## Leading parentheses -/

mutual

/-- How many tuples a type begins with, one in the other. -/
def leadingTuples : Ty → Nat
  | .unit _ => 1
  | .tuple _ elements => leadingTuplesOf elements + 1
  | _ => 0

def leadingTuplesOf : List Ty → Nat
  | [] => 0
  | type :: _ => leadingTuples type

end

/-- How many opening parentheses stand ahead. -/
def leadingParens : List Lexeme → Nat
  | [] => 0
  | l :: ls => if l.kind = .lParen then leadingParens ls + 1 else 0

theorem leadingParens_of_ne {l : Lexeme} (h : l.kind ≠ .lParen) (ls : List Lexeme) :
    leadingParens (l :: ls) = 0 := if_neg h

theorem leadingTuples_halves : ∀ (type : TypeText) (K : List Lexeme),
    leadingParens (munch (type.halves ++ K) ++ rest) = leadingTuples type.tree
  | .primitive kind, K => by
    have hgt : (symbol (primitiveToken kind)).kind ≠ .greater := by
      cases kind <;> exact TokenKind.noConfusion
    have hparen : (symbol (primitiveToken kind)).kind ≠ .lParen := by
      cases kind <;> exact TokenKind.noConfusion
    rw [TypeText.halves, List.singleton_append, munch_cons hgt, List.cons_append,
      leadingParens_of_ne hparen]
    cases kind <;> rfl
  | .never, K => by
    rw [TypeText.halves, List.singleton_append, munch_cons TokenKind.noConfusion]
    rfl
  | .tuple [] trailing, K => by
    rw [TypeText.halves, TypeText.listHalves, List.nil_append, List.cons_append,
      munch_cons TokenKind.noConfusion, List.singleton_append, munch_cons TokenKind.noConfusion]
    rfl
  | .tuple (first :: elements) trailing, K => by
    rw [TypeText.halves, TypeText.listHalves, List.cons_append, munch_cons TokenKind.noConfusion,
      List.append_assoc, List.append_assoc, List.append_assoc]
    exact congrArg (· + 1) (leadingTuples_halves first _)
  | .path name args, K => by
    rw [TypeText.halves, List.append_assoc, munch_path, List.append_assoc]
    exact leadingParens_of_ne (segmentKind_ne name.first rfl) _
  | .ref isMut inner, K => by
    rw [TypeText.halves, List.cons_append, munch_cons TokenKind.noConfusion]
    rfl

theorem parenType_tuples {p : PM Ty} {mark : Nat} {type : Ty}
    (hp : ∀ {first u}, p s = .ok (some first, u) → leadingTuples first.plain ≤ leadingParens ls)
    (hs : At inp m ls s) (h : inp.parseParenType mark p s = .ok (some type, s')) :
    leadingTuples type.plain ≤ leadingParens ls + 1 := by
  by_cases hunit : nextKind ls = .rParen
  · obtain ⟨l, ls, rfl⟩ := List.exists_cons_of_ne_nil hs.stream.ne_nil
    rw [nextKind_cons] at hunit
    obtain ⟨u, hacc, -⟩ := hs.accept_yes (by rw [hunit]; exact TokenKind.noConfusion)
    rw [hunit] at hacc
    replace h := bind_known h hacc
    obtain ⟨span, rfl⟩ := spanned_some h
    exact Nat.le_add_left 1 _
  · replace h := bind_known h (hs.accept_no TokenKind.noConfusion hunit)
    obtain ⟨first, u, hfirst, h⟩ := bind_some h
    have hle := hp hfirst
    obtain ⟨b, u1, -, h⟩ := bind_some h
    cases b with
    | true =>
      obtain ⟨elements, u2, helements, h⟩ := bind_some h
      obtain ⟨-, u3, -, h⟩ := bind_some h
      obtain ⟨span, rfl⟩ := spanned_some h
      obtain ⟨tail, rfl⟩ := loopM_extends restRound_extends helements
      exact Nat.succ_le_succ hle
    | false =>
      obtain ⟨-, u3, -, h⟩ := bind_some h
      cases h
      exact Nat.le_succ_of_le hle

theorem pathType_tuples {p : PM Ty} {mark : Nat} {type : Ty}
    (h : inp.parsePathType mark p s = .ok (some type, s')) : leadingTuples type.plain = 0 := by
  obtain ⟨path, u, -, h⟩ := bind_some h
  obtain ⟨b, u1, -, h⟩ := bind_some h
  cases b with
  | true =>
    obtain ⟨args, u2, -, h⟩ := bind_some h
    obtain ⟨c, u3, -, h⟩ := bind_some h
    cases c with
    | true =>
      obtain ⟨span, rfl⟩ := spanned_some h
      rfl
    | false =>
      obtain ⟨-, u4, -, h⟩ := bind_some h
      cases h
  | false =>
    obtain ⟨span, rfl⟩ := spanned_some h
    rfl

/-- Only an opening parenthesis begins a tuple. -/
theorem typeBranch_tuples {p : PM Ty} {mark : Nat} {kind : TokenKind} {type : Ty}
    (hkind : kind ≠ .lParen) (h : inp.typeBranch mark p kind s = .ok (some type, s')) :
    leadingTuples type.plain = 0 := by
  unfold Input.typeBranch at h
  split at h
  · exact absurd rfl hkind
  · obtain ⟨-, u, -, h⟩ := bind_some h
    obtain ⟨span, rfl⟩ := spanned_some h
    rfl
  · obtain ⟨-, u, -, h⟩ := bind_some h
    obtain ⟨isMut, u1, -, h⟩ := bind_some h
    obtain ⟨inner, u2, -, h⟩ := bind_some h
    obtain ⟨span, rfl⟩ := spanned_some h
    rfl
  · obtain ⟨-, u, -, h⟩ := bind_some h
    obtain ⟨span, rfl⟩ := spanned_some h
    rfl
  · cases hprimitive : Input.primitiveKind kind with
    | some primitive =>
      rw [hprimitive] at h
      obtain ⟨-, u, -, h⟩ := bind_some h
      obtain ⟨span, rfl⟩ := spanned_some h
      rfl
    | none =>
      rw [hprimitive] at h
      exact pathType_tuples h

/-- Every type begins with at most as many tuples as there are parentheses. -/
theorem typeLevel_tuples (depth : Nat) {type : Ty} (hs : At inp m ls s)
    (h : inp.typeLevel depth s = .ok (some type, s')) :
    leadingTuples type.plain ≤ leadingParens ls := by
  induction depth generalizing ls s s' type with
  | zero => cases h
  | succ depth ih =>
    obtain ⟨l, ls, rfl⟩ := List.exists_cons_of_ne_nil hs.stream.ne_nil
    obtain ⟨t, ht, hlex, -⟩ := hs.token
    have hkind : t.kind = l.kind := congrArg Lexeme.kind hlex
    rw [Input.typeLevel, Input.parseTypeWith_eq] at h
    replace h := bind_known h (show PM.here s = .ok (some s.pos, s) from rfl)
    replace h := bind_known h (peek_run ht)
    rw [hkind] at h
    by_cases hparen : l.kind = .lParen
    · rw [leadingParens, if_pos hparen]
      rw [hparen] at h
      obtain ⟨u, hadv, hu⟩ := hs.advance (by rw [hparen]; exact TokenKind.noConfusion)
      replace h := bind_known h hadv
      exact parenType_tuples (fun hp => ih hu (after_some hp)) hu h
    · rw [typeBranch_tuples hparen h]
      exact Nat.zero_le _

/-! ## Arguments -/

/-- A comma ahead has been taken, and for nothing but the end of the arguments. -/
def TookComma (inp : Input) (after : List Lexeme) (s : PState) : Prop :=
  nextKind after = .comma →
    endsArgs (nextKind after.tail) = true ∧ inp.count < s.pos + after.length

theorem TookComma.forward {after : List Lexeme} (h : TookComma inp after s) (hle : Forward s s') :
    TookComma inp after s' := by
  intro hcomma
  obtain ⟨hends, hlt⟩ := h hcomma
  exact ⟨hends, Nat.lt_of_lt_of_le hlt (Nat.add_le_add_right hle _)⟩

/-- With fewer than `M` lexemes ahead, a type that a call of `parse_type` reads back is legible; one
that steals has taken the comma. -/
def TypesBack (inp : Input) (m : Mode) (M : Nat) (p : PM Ty) : Prop :=
  ∀ (type : TypeText) (K rest : List Lexeme) (s s' : PState) (result : Ty),
    At inp (m.banked 0) (munch (type.halves ++ K) ++ rest) s →
    (munch (type.halves ++ K) ++ rest).length < M → p s = .ok (some result, s') →
    result.plain = type.tree →
    type.legible = true ∧ (type.steals = true → TookComma inp (munch K ++ rest) s')

variable {p : PM Ty}

theorem TypesBack.after (h : TypesBack inp m M p) (hM : ls.length ≤ M) (mark : Nat) :
    TypesBack inp m ls.length (p.after mark) := by
  intro type K rest s s' result hs hlt hrun
  exact h type K rest s s' result hs (Nat.lt_of_lt_of_le hlt hM) (after_some hrun)

/-- Nothing is stolen from a list that goes on. -/
theorem TypesBack.kept (h : TypesBack inp m M p) {type : TypeText} {result : Ty}
    (hs : At inp (m.banked 0) (munch (type.halves ++ symbol .comma :: K) ++ rest) s)
    (hM : (munch (type.halves ++ symbol .comma :: K) ++ rest).length < M)
    (hopen : endsArgs (nextKind (munch K ++ rest)) = false)
    (hrun : p s = .ok (some result, s')) (heq : result.plain = type.tree) :
    type.legible = true ∧ type.steals = false := by
  obtain ⟨hlegible, htook⟩ := h type (symbol .comma :: K) rest s s' result hs hM hrun heq
  refine ⟨hlegible, Bool.eq_false_iff.2 fun hsteals => ?_⟩
  have hK : munch (symbol .comma :: K) ++ rest = symbol .comma :: (munch K ++ rest) := by
    rw [munch_cons TokenKind.noConfusion]
    rfl
  rw [hK] at htook
  have hends : endsArgs (nextKind (munch K ++ rest)) = true := (htook hsteals rfl).1
  rw [hends] at hopen
  exact Bool.noConfusion hopen

theorem nextKind_listHalves (trailing : Bool) (type : TypeText) (types : List TypeText) :
    endsArgs (nextKind (munch (TypeText.listHalves trailing (type :: types) ++ K) ++ rest)) =
      false := by
  obtain ⟨l, tl, hl, hstart⟩ := halves_begin type
  rw [TypeText.listHalves, hl]
  simp only [List.cons_append]
  rw [munch_cons (startsType_ne hstart rfl)]
  exact startsType_continues hstart

theorem argsRounds_back (hp : TypesRead inp m M p) (hb : TypesBack inp m M p) {args : List TypeText}
    (hargs : args ≠ []) {acc as : List Ty} {fuel : Nat}
    (hs : At inp (m.banked 0) (munch (TypeText.listHalves false args ++ gt :: K) ++ rest) s)
    (hM : (munch (TypeText.listHalves false args ++ gt :: K) ++ rest).length < M)
    (hrun : loopM (inp.listRound inp.typeArgsClosed p) fuel acc s = .ok (some as, s'))
    (heq : as.map Ty.plain = acc.map Ty.plain ++ TypeText.trees args) :
    TypeText.listLegible false args = true ∧
      (TypeText.lastRun args % 2 = 1 → TookComma inp (munch K ++ rest) s') := by
  induction args generalizing s acc fuel with
  | nil => exact absurd rfl hargs
  | cons type types ih =>
    cases fuel with
    | zero => cases hrun
    | succ fuel =>
      obtain ⟨x, u, hx, hext⟩ := listRounds_first hrun
      have hxtree : x.plain = type.tree := element_of_extends hext heq
      cases types with
      | nil =>
        rw [listHalves_one] at hs hM
        obtain ⟨hlegible, -⟩ := hb type (gt :: K) rest s u x hs hM hx hxtree
        refine ⟨by rw [TypeText.listLegible, hlegible]; rfl, fun hodd hcomma => ?_⟩
        have hstops : type.stops (nextKind (gt :: K ++ rest)) = true :=
          type.stops_of_ne TokenKind.noConfusion TokenKind.noConfusion TokenKind.noConfusion
        obtain ⟨-, hamid⟩ := (hp type (gt :: K) rest s hlegible hstops hs hM).of_run hx
        have hrunOdd : (nextKind (gt :: K) == .greater && type.run % 2 == 1) = true :=
          beq_iff_eq.2 hodd
        rw [hrunOdd] at hamid
        -- half of a closing bracket is banked, and the loop takes the comma for its own
        cases hamid with
        | half _ hu =>
          obtain ⟨l, tl, hl⟩ := List.exists_cons_of_ne_nil hu.stream.ne_nil
          rw [hl] at hu hcomma ⊢
          rw [nextKind_cons] at hcomma
          obtain ⟨v, hacc, hv⟩ := hu.accept_yes (by rw [hcomma]; exact TokenKind.noConfusion)
          rw [hcomma] at hacc
          have hcases := listRounds_comma hrun hx hacc hv.argsClosed
          cases hends : endsArgs (nextKind tl) with
          | true =>
            rw [hends, if_pos rfl] at hcases
            obtain ⟨-, rfl⟩ := hcases
            have := hv.count
            exact ⟨hends, by rw [List.length_cons]; omega⟩
          | false =>
            rw [hends, if_neg Bool.false_ne_true] at hcases
            have hmore := listRounds_more hcases
            have hlen := congrArg List.length heq
            simp only [List.length_map, List.length_append, TypeText.trees, List.length_cons,
              List.length_nil] at hmore hlen
            omega
      | cons next types =>
        rw [listHalves_more, List.append_assoc, List.cons_append] at hs hM
        have hopen := @nextKind_listHalves rest (gt :: K) false next types
        obtain ⟨hlegible, hsteals⟩ := hb.kept hs hM hopen hx hxtree
        rw [munch_append TokenKind.noConfusion, List.append_assoc, List.cons_append] at hs hM
        obtain ⟨-, hu⟩ := (hp.takes hlegible (TypeText.stops_comma hsteals) _ s hs hM rfl).of_run hx
        obtain ⟨v, hacc, hv⟩ := hu.accept_yes TokenKind.noConfusion
        have hcases := listRounds_comma hrun hx hacc hv.argsClosed
        rw [hopen, if_neg Bool.false_ne_true] at hcases
        have hlt :
            (munch (TypeText.listHalves false (next :: types) ++ gt :: K) ++ rest).length < M := by
          rw [@List.length_append _ (munch type.halves), List.length_cons] at hM
          omega
        obtain ⟨hrest, htook⟩ := ih (List.cons_ne_nil next types) hv hlt hcases (by
          rw [heq, List.map_append, List.map_singleton, hxtree, List.append_assoc]
          rfl)
        refine ⟨?_, htook⟩
        rw [TypeText.listLegible, hlegible, hsteals, hrest]
        rfl

theorem parsePathType_back (hp : TypesRead inp m M p) (hb : TypesBack inp m M p) {path : PathText}
    {args : List TypeText} {mark : Nat} {result : Ty}
    (hs : At inp (m.banked 0) (munch ((TypeText.path path args).halves ++ K) ++ rest) s)
    (hM : (munch ((TypeText.path path args).halves ++ K) ++ rest).length ≤ M)
    (hrun : inp.parsePathType mark p s = .ok (some result, s'))
    (heq : result.plain = (TypeText.path path args).tree) :
    (TypeText.path path args).legible = true ∧
      ((TypeText.path path args).steals = true → TookComma inp (munch K ++ rest) s') := by
  cases args with
  | nil => exact ⟨rfl, fun h => Bool.noConfusion h⟩
  | cons arg args =>
    have hless : (symbol .less).kind ≠ .greater := TokenKind.noConfusion
    rw [TypeText.halves, List.append_assoc, munch_path, List.append_assoc, List.isEmpty_cons,
      if_neg Bool.false_ne_true, List.cons_append, munch_cons hless, List.append_assoc,
      List.singleton_append] at hs hM
    obtain ⟨name, u, hname, hrun⟩ := bind_some hrun
    obtain ⟨-, hu⟩ := (parsePath_gives hs TokenKind.noConfusion).of_run hname
    obtain ⟨v, hacc, hv⟩ := hu.accept_yes TokenKind.noConfusion
    replace hv : At inp (m.banked 0)
      (munch (TypeText.listHalves false (arg :: args) ++ gt :: K) ++ rest) v := hv
    replace hrun := bind_known hrun hacc
    obtain ⟨as, w, has, hrun⟩ := bind_some hrun
    obtain ⟨c, w1, hgt, hrun⟩ := bind_some hrun
    cases c with
    | false =>
      obtain ⟨-, w2, -, hrun⟩ := bind_some hrun
      cases hrun
    | true =>
      have hstay : Forward w w1 := stays_consumeGt w _ w1 hgt
      have hforward : Forward w s' := Frame.trans hstay (Stays.spanned w1 _ s' hrun)
      obtain ⟨span, rfl⟩ := spanned_some hrun
      have hargs : as.map Ty.plain = TypeText.trees (arg :: args) := by
        rw [Ty.plain, TypeText.tree, Ty.path.injEq, Ty.plainAll_eq] at heq
        exact heq.2.2
      have hlt :
          (munch (TypeText.listHalves false (arg :: args) ++ gt :: K) ++ rest).length < M := by
        rw [@List.length_append _ path.lexemes, List.cons_append, List.length_cons] at hM
        omega
      replace has := bind_known has hv.argsClosed
      rw [nextKind_listHalves, if_neg Bool.false_ne_true] at has
      obtain ⟨hlegible, htook⟩ :=
        argsRounds_back hp hb (List.cons_ne_nil arg args) hv hlt has hargs
      refine ⟨hlegible, fun hsteals => (htook ?_).forward hforward⟩
      have hrunEq : (TypeText.path path (arg :: args)).run =
        TypeText.lastRun (arg :: args) + 1 := rfl
      rw [TypeText.steals, hrunEq, Bool.and_eq_true, bne_iff_ne, beq_iff_eq] at hsteals
      omega

/-! ## Lists in brackets -/

theorem At.open {close : TokenKind} {l : Lexeme} (hs : At inp m (l :: ls) s) (hne : close ≠ .eof)
    (hk : l.kind ≠ close) (hl : l.kind ≠ .eof) {f : Bool → Bool → PM β}
    {r : Except Fault (Option β × PState)}
    (h : (inp.check close >>= fun a => inp.atEnd >>= fun b => f a b) s = r) :
    f false false s = r := by
  obtain ⟨t, ht, hlex, -⟩ := hs.token
  have hkind : t.kind = l.kind := congrArg Lexeme.kind hlex
  rw [bind_run, hs.check hne, nextKind_cons, beq_eq_false_iff_ne.2 hk] at h
  simp only at h
  rw [bind_run, atEnd_run ht, hkind, beq_eq_false_iff_ne.2 hl] at h
  exact h

/-- The first round of a loop that looks for the closing bracket first. -/
theorem restRounds_first {close : TokenKind} {item : PM α} {fuel : Nat} {acc as : List α}
    {l : Lexeme} (hs : At inp m (l :: ls) s) (hne : close ≠ .eof) (hk : l.kind ≠ close) (hl : l.kind ≠ .eof)
    (h : loopM (inp.restRound close item) (fuel + 1) acc s = .ok (some as, s')) :
    ∃ x u, item s = .ok (some x, u) ∧ acc ++ [x] <+: as ∧
      ∀ v, inp.accept .comma u = .ok (some true, v) →
        loopM (inp.restRound close item) fuel (acc ++ [x]) v = .ok (some as, s') := by
  have hround : ∀ {r : List α × Bool} {v : PState},
      inp.restRound close item acc s = .ok (some r, v) → ∃ x u, item s = .ok (some x, u) ∧
        ∃ b, inp.accept .comma u = .ok (some b, v) ∧ r = (acc ++ [x], b) := by
    intro r v hr
    obtain ⟨x, u, hx, hr⟩ := bind_some (hs.open hne hk hl hr)
    obtain ⟨b, u1, hb, hr⟩ := bind_some hr
    refine ⟨x, u, hx, b, ?_⟩
    cases b <;> cases hr <;> exact ⟨hb, rfl⟩
  rcases loopM_some h with hstop | ⟨acc', v, hgo, hrest⟩
  · obtain ⟨x, u, hx, b, hb, heq⟩ := hround hstop
    cases heq
    refine ⟨x, u, hx, List.prefix_rfl, fun v hv => ?_⟩
    rw [hb] at hv
    cases hv
  · obtain ⟨x, u, hx, b, hb, heq⟩ := hround hgo
    cases heq
    refine ⟨x, u, hx, loopM_extends restRound_extends hrest, fun w hw => ?_⟩
    rw [hb] at hw
    cases hw
    exact hrest

section Lists

variable {σ τ : Type} {lex : σ → List Lexeme} {see : α → τ} {tree : σ → τ} {close : TokenKind}
  {trailing : Bool} {item : PM α} {R : σ → TokenKind → Prop}

/-- An element is read back before a lexeme of some kind exactly when `R` says so. -/
structure ReadsBack (inp : Input) (m : Mode) (M : Nat) (item : PM α) (lex : σ → List Lexeme)
    (see : α → τ) (tree : σ → τ) (close : TokenKind) (R : σ → TokenKind → Prop) : Prop where
  begins : ∀ x, ∃ l ls, lex x = l :: ls ∧ l.kind ≠ close ∧ endsArgs l.kind = false
  reads : ∀ x k, R x k → TakesEach inp m M item lex see tree x k
  back : ∀ (x : σ) (ls : List Lexeme) (s s' : PState) (a : α), At inp m (lex x ++ ls) s →
    (lex x ++ ls).length < M →
    nextKind ls = .comma ∧ endsArgs (nextKind ls.tail) = false ∨ nextKind ls = close →
    item s = .ok (some a, s') → see a = tree x → R x (nextKind ls)

theorem endsArgs_ne_eof {k : TokenKind} (h : endsArgs k = false) : k ≠ .eof := by
  rintro rfl
  cases h

/-- What comes after the comma behind an element does not end the arguments. -/
theorem ReadsBack.continues (h : ReadsBack inp m M item lex see tree close R)
    (hclose : endsArgs close = false) (hk : nextKind ls = close) (xs : List σ) :
    endsArgs (nextKind (commas trailing (xs.map lex) ++ ls)) = false := by
  cases xs with
  | nil => exact hk ▸ hclose
  | cons x xs =>
    obtain ⟨l, tl, hlex, -, hends⟩ := h.begins x
    rw [List.map_cons, commas, hlex]
    exact hends

/-- What an element that was read back says of the rest of its list. -/
theorem ReadsBack.element (h : ReadsBack inp m M item lex see tree close R)
    (hclose : endsArgs close = false) {x : σ} {xs : List σ} {a : α} {u : PState}
    (hs : At inp m (commas trailing ((x :: xs).map lex) ++ ls) s)
    (hM : (commas trailing ((x :: xs).map lex) ++ ls).length < M) (hk : nextKind ls = close)
    (ha : item s = .ok (some a, u)) (hsee : see a = tree x) :
    R x (if xs.isEmpty && !trailing then close else .comma) ∧
      ((xs.isEmpty && !trailing) = false → ∃ v, inp.accept .comma u = .ok (some true, v) ∧
        At inp m (commas trailing (xs.map lex) ++ ls) v ∧
        (commas trailing (xs.map lex) ++ ls).length < M) := by
  rw [List.map_cons, commas, List.append_assoc, List.append_assoc, List.isEmpty_map] at hs hM
  cases hlast : xs.isEmpty && !trailing with
  | true =>
    obtain rfl : xs = [] := List.isEmpty_iff.1 (Bool.and_eq_true _ _ ▸ hlast).1
    rw [if_pos hlast] at hs hM
    exact ⟨hk ▸ h.back x _ s u a hs hM (.inr hk) ha hsee, fun hgo => Bool.noConfusion hgo⟩
  | false =>
    rw [if_neg (by rw [hlast]; exact Bool.false_ne_true)] at hs hM
    have hR : R x .comma :=
      h.back x _ s u a hs hM (.inl ⟨rfl, h.continues hclose hk xs⟩) ha hsee
    obtain ⟨-, hu⟩ := (h.reads x .comma hR _ s hs hM rfl).of_run ha
    obtain ⟨v, hacc, hv⟩ := hu.accept_yes TokenKind.noConfusion
    refine ⟨hR, fun _ => ⟨v, hacc, hv, ?_⟩⟩
    simp only [List.length_append, List.length_cons, List.length_nil] at hM ⊢
    omega

/-- The elements to come, when one was read. -/
theorem seen_rest {see : α → τ} {tree : σ → τ} {x : σ} {xs : List σ} {acc as : List α} {a : α}
    (heq : as.map see = acc.map see ++ (x :: xs).map tree) (hsee : see a = tree x) :
    as.map see = (acc ++ [a]).map see ++ xs.map tree := by
  rw [heq, List.map_append, List.map_singleton, hsee, List.append_assoc]
  rfl

theorem restRounds_back (h : ReadsBack inp m M item lex see tree close R)
    (hclose : endsArgs close = false) {xs : List σ} {acc as : List α} {fuel : Nat}
    (hs : At inp m (commas trailing (xs.map lex) ++ ls) s)
    (hM : (commas trailing (xs.map lex) ++ ls).length < M) (hk : nextKind ls = close)
    (hrun : loopM (inp.restRound close item) fuel acc s = .ok (some as, s'))
    (heq : as.map see = acc.map see ++ xs.map tree) : Followed close trailing R xs := by
  induction xs generalizing s acc fuel with
  | nil => trivial
  | cons x xs ih =>
    cases fuel with
    | zero => cases hrun
    | succ fuel =>
      obtain ⟨l, tl, hlex, hlk, hle⟩ := h.begins x
      have hhead : At inp m (l :: (tl ++ ((if (xs.map lex).isEmpty && !trailing then []
          else [symbol .comma]) ++ commas trailing (xs.map lex) ++ ls))) s := by
        simpa only [List.map_cons, commas, hlex, List.append_assoc, List.cons_append] using hs
      obtain ⟨a, u, ha, hext, hgo⟩ :=
        restRounds_first hhead (endsArgs_ne_eof hclose) hlk (endsArgs_ne_eof hle) hrun
      have hsee : see a = tree x := element_of_extends hext heq
      obtain ⟨hR, hrest⟩ := h.element hclose hs hM hk ha hsee
      refine ⟨hR, ?_⟩
      cases hlast : xs.isEmpty && !trailing with
      | true =>
        obtain rfl : xs = [] := List.isEmpty_iff.1 (Bool.and_eq_true _ _ ▸ hlast).1
        trivial
      | false =>
        obtain ⟨v, hacc, hv, hlt⟩ := hrest hlast
        exact ih hv hlt (hgo v hacc) (seen_rest heq hsee)

/-- The loop that looks for the closing bracket after a comma. -/
theorem listRounds_back (h : ReadsBack inp m M item lex see tree close R)
    (hclose : endsArgs close = false) {xs : List σ} (hxs : xs ≠ []) {acc as : List α} {fuel : Nat}
    (hs : At inp m (commas trailing (xs.map lex) ++ ls) s)
    (hM : (commas trailing (xs.map lex) ++ ls).length < M) (hk : nextKind ls = close)
    (hrun : loopM (inp.listRound (inp.check close) item) fuel acc s = .ok (some as, s'))
    (heq : as.map see = acc.map see ++ xs.map tree) : Followed close trailing R xs := by
  induction xs generalizing s acc fuel with
  | nil => exact absurd rfl hxs
  | cons x xs ih =>
    cases fuel with
    | zero => cases hrun
    | succ fuel =>
      obtain ⟨a, u, ha, hext⟩ := listRounds_first hrun
      have hsee : see a = tree x := element_of_extends hext heq
      obtain ⟨hR, hrest⟩ := h.element hclose hs hM hk ha hsee
      refine ⟨hR, ?_⟩
      cases xs with
      | nil => trivial
      | cons y ys =>
        obtain ⟨v, hacc, hv, hlt⟩ := hrest rfl
        obtain ⟨l, tl, hlex, hlk, -⟩ := h.begins y
        have hopen := hv.check (endsArgs_ne_eof hclose)
        have hnext : nextKind (commas trailing ((y :: ys).map lex) ++ ls) ≠ close := by
          rw [List.map_cons, commas, hlex]
          exact hlk
        rw [beq_eq_false_iff_ne.2 hnext] at hopen
        have hgo := listRounds_comma hrun ha hacc hopen
        rw [if_neg Bool.false_ne_true] at hgo
        exact ih (List.cons_ne_nil y ys) hv hlt hgo (seen_rest heq hsee)

end Lists

/-! ## Types -/

/-- A type is taken whole before a lexeme of this kind. -/
def TypeText.Fits (type : TypeText) (k : TokenKind) : Prop :=
  type.legible = true ∧ type.stops k = true

/-- A bracket that closes a list of types. -/
structure ClosesTypes (close : TokenKind) : Prop where
  starts : startsType close = false
  ends : endsArgs close = false
  colon : close ≠ .colonColon
  less : close ≠ .less
  comma : close ≠ .comma

/-- No type of the list takes a comma. -/
theorem listLegible_iff {close : TokenKind} (hclose : ClosesTypes close) {trailing : Bool} :
    ∀ {types : List TypeText},
    TypeText.listLegible trailing types = true ↔ Followed close trailing TypeText.Fits types
  | [] => ⟨fun _ => trivial, fun _ => rfl⟩
  | type :: types => by
    refine ⟨listLegible_followed hclose.colon hclose.less hclose.comma, fun h => ?_⟩
    obtain ⟨⟨hlegible, hstops⟩, hrest⟩ := h
    rw [TypeText.listLegible, hlegible, (listLegible_iff hclose).2 hrest]
    cases hlast : types.isEmpty && !trailing with
    | true => rfl
    | false =>
      rw [hlast, if_neg Bool.false_ne_true, TypeText.stops, Bool.and_eq_true, beq_self_eq_true,
        Bool.and_true] at hstops
      rw [hstops.2]
      rfl

/-- A type that has not taken the comma ends there, and every type ends at the bracket. -/
theorem ClosesTypes.fits {close : TokenKind} (hclose : ClosesTypes close) {type : TypeText}
    (h : type.legible = true ∧ (type.steals = true → TookComma inp ls s))
    (hnext : nextKind ls = .comma ∧ endsArgs (nextKind ls.tail) = false ∨ nextKind ls = close) :
    type.Fits (nextKind ls) := by
  refine ⟨h.1, ?_⟩
  rcases hnext with ⟨hcomma, hopen⟩ | hk
  · rw [hcomma]
    refine TypeText.stops_comma (Bool.eq_false_iff.2 fun hsteals => ?_)
    have hends : endsArgs (nextKind ls.tail) = true := (h.2 hsteals hcomma).1
    rw [hends] at hopen
    exact Bool.noConfusion hopen
  · rw [hk]
    exact type.stops_of_ne hclose.colon hclose.less hclose.comma

theorem TypesBack.readsBack {close : TokenKind} (hclose : ClosesTypes close)
    (hp : TypesRead inp m M p) (hb : TypesBack inp m M p) :
    ReadsBack inp (m.banked 0) M p (fun type => munch type.halves) Ty.plain TypeText.tree close
      TypeText.Fits where
  begins type := by
    obtain ⟨l, tl, hl, hs⟩ := munch_halves_begin type
    exact ⟨l, tl, hl, startsType_ne hs hclose.starts, startsType_continues hs⟩
  reads type k h := hp.takes h.1 h.2
  back type ls s s' result hs hM hnext hrun heq := by
    rw [← List.append_nil type.halves] at hs hM
    exact hclose.fits (hb type [] ls s s' result hs hM hrun heq) hnext

theorem closes_rParen : ClosesTypes .rParen :=
  ⟨rfl, rfl, TokenKind.noConfusion, TokenKind.noConfusion, TokenKind.noConfusion⟩

theorem closes_rBrace : ClosesTypes .rBrace :=
  ⟨rfl, rfl, TokenKind.noConfusion, TokenKind.noConfusion, TokenKind.noConfusion⟩

/-- A tuple that comes out as one: a first element that had taken the comma would be the whole. -/
theorem parseParenType_back (hp : TypesRead inp m M p) (hb : TypesBack inp m M p)
    (hfew : ∀ {ls : List Lexeme} {s s' : PState} {type : Ty}, At inp (m.banked 0) ls s →
      p s = .ok (some type, s') → leadingTuples type.plain ≤ leadingParens ls)
    {elements : List TypeText} {trailing : Bool} {mark : Nat} {result : Ty}
    (hs : At inp (m.banked 0) (munch (TypeText.listHalves (trailing || elements.length == 1)
      elements ++ symbol .rParen :: K) ++ rest) s)
    (hM : (munch (TypeText.listHalves (trailing || elements.length == 1) elements
      ++ symbol .rParen :: K) ++ rest).length < M)
    (hrun : inp.parseParenType mark p s = .ok (some result, s'))
    (heq : result.plain = (TypeText.tuple elements trailing).tree) :
    (TypeText.tuple elements trailing).legible = true := by
  have hparen : (symbol .rParen).kind ≠ .greater := TokenKind.noConfusion
  rw [munch_listHalves hparen, List.append_assoc, List.cons_append] at hs hM
  rw [TypeText.legible, listLegible_iff closes_rParen]
  generalize htr : (trailing || elements.length == 1) = tr at hs hM ⊢
  cases elements with
  | nil => trivial
  | cons first elements =>
    have hback := hb.readsBack closes_rParen hp
    have hcomma : (elements.isEmpty && !tr) = false := by
      subst htr
      cases elements with
      | nil => rw [List.length_singleton, beq_self_eq_true, Bool.or_true]; rfl
      | cons => rfl
    rw [List.map_cons, commas, List.isEmpty_map, hcomma, if_neg Bool.false_ne_true,
      List.append_assoc, List.append_assoc] at hs hM
    obtain ⟨l, tl, hl, hstart⟩ := munch_halves_begin first
    have hne : nextKind (munch first.halves ++ ([symbol .comma] ++ (commas tr
        (elements.map fun type => munch type.halves) ++ symbol .rParen :: (munch K ++ rest)))) ≠
        .rParen := by
      rw [hl]
      exact startsType_ne hstart rfl
    replace hrun := bind_known hrun (hs.accept_no TokenKind.noConfusion hne)
    obtain ⟨x, u, hx, hrun⟩ := bind_some hrun
    obtain ⟨b, u1, hacc, hrun⟩ := bind_some hrun
    rw [TypeText.tree, List.isEmpty_cons, if_neg Bool.false_ne_true] at heq
    cases b with
    | false =>
      obtain ⟨-, u2, -, hrun⟩ := bind_some hrun
      cases hrun
      have hle := hfew hs hx
      have htuples := @leadingTuples_halves ([symbol .comma] ++ (commas tr (elements.map
        fun type => munch type.halves) ++ symbol .rParen :: (munch K ++ rest))) first []
      rw [List.append_nil] at htuples
      have hone : leadingTuples result.plain = leadingTuples first.tree + 1 := by
        rw [heq]
        rfl
      omega
    | true =>
      obtain ⟨as, u2, has, hrun⟩ := bind_some hrun
      obtain ⟨-, u3, -, hrun⟩ := bind_some hrun
      obtain ⟨span, rfl⟩ := spanned_some hrun
      rw [Ty.plain, Ty.tuple.injEq, Ty.plainAll_eq, trees_eq] at heq
      rw [Input.commaRest_eq] at has
      have hext : [] ++ [x] <+: as := loopM_extends restRound_extends has
      have hxtree : x.plain = first.tree := element_of_extends hext heq.2
      have hfirst : first.Fits .comma := hback.back first _ s u x hs hM
        (.inl ⟨rfl, hback.continues rfl rfl elements⟩) hx hxtree
      obtain ⟨-, hu⟩ := (hback.reads first .comma hfirst _ s hs hM rfl).of_run hx
      obtain ⟨v, hyes, hv⟩ := hu.accept_yes TokenKind.noConfusion
      obtain rfl : v = u1 := by
        have hsame := hyes.symm.trans hacc
        cases hsame
        rfl
      have hlt : (commas tr (elements.map fun type => munch type.halves) ++
          symbol .rParen :: (munch K ++ rest)).length < M := by
        simp only [List.length_append] at hM ⊢
        omega
      refine ⟨by rw [hcomma]; exact hfirst, ?_⟩
      refine restRounds_back hback rfl hv hlt rfl has ?_
      rw [heq.2, List.map_singleton, hxtree]
      rfl

theorem At.mut {isMut : Bool} (hs : At inp m (mutText isMut ++ ls) s) (hne : nextKind ls ≠ .mut) :
    ∃ s', inp.accept .mut s = .ok (some isMut, s') ∧ At inp m ls s' := by
  cases isMut with
  | true => exact hs.accept_yes TokenKind.noConfusion
  | false => exact ⟨s, hs.accept_no TokenKind.noConfusion hne, hs⟩

theorem typeLevel_back : ∀ depth : Nat, TypesBack inp m (depth + 1) (inp.typeLevel depth) := by
  intro depth
  induction depth with
  | zero =>
    intro type K rest s s' result _ _ hrun _
    cases hrun
  | succ depth ih =>
    intro type K rest s s' result hs hM hrun heq
    have hpos := hs
    rw [Input.typeLevel, Input.parseTypeWith_eq] at hrun
    replace hrun := bind_known hrun (show PM.here s = .ok (some s.pos, s) from rfl)
    obtain ⟨l, tl, htext, hstart⟩ := halves_begin type
    have hhead : At inp (m.banked 0) (l :: (munch (tl ++ K) ++ rest)) s := by
      rw [htext, List.cons_append, munch_cons (startsType_ne hstart rfl)] at hs
      exact hs
    obtain ⟨t, ht, hlex, -⟩ := hhead.token
    replace hrun := bind_known hrun (peek_run ht)
    have hkind : t.kind = l.kind := congrArg Lexeme.kind hlex
    rw [hkind] at hrun
    have hread := (@typeLevel_reads inp m depth).after hs (Nat.le_of_lt_succ hM)
    have hback := ih.after (Nat.le_of_lt_succ hM) s.pos
    cases type with
    | primitive kind => exact ⟨rfl, fun h => Bool.noConfusion h⟩
    | never => exact ⟨rfl, fun h => Bool.noConfusion h⟩
    | tuple elements trailing =>
      obtain rfl : symbol .lParen = l := (List.cons.inj htext).1
      rw [TypeText.halves, List.cons_append, munch_cons TokenKind.noConfusion, List.append_assoc,
        List.singleton_append] at hs hread hback
      obtain ⟨u, hadv, hu⟩ := hs.advance TokenKind.noConfusion
      replace hrun := bind_known hrun hadv
      refine ⟨?_, fun h => Bool.noConfusion h⟩
      refine parseParenType_back hread hback ?_ hu (Nat.lt_succ_self _) hrun heq
      exact fun hs' h => typeLevel_tuples depth hs' (after_some h)
    | path path args =>
      obtain rfl : segment path.first = l := (List.cons.inj htext).1
      have hpath : inp.parsePathType s.pos ((inp.typeLevel depth).after s.pos) s =
          .ok (some result, s') := by
        change inp.typeBranch s.pos ((inp.typeLevel depth).after s.pos) (segmentKind path.first) s =
          .ok (some result, s') at hrun
        rcases segmentKind_cases path.first with h | h | h | h | h <;> rw [h] at hrun <;> exact hrun
      exact parsePathType_back hread hback hs (Nat.le_refl _) hpath heq
    | ref isMut inner =>
      obtain rfl : symbol .amp = l := (List.cons.inj htext).1
      rw [TypeText.halves, List.cons_append, munch_cons TokenKind.noConfusion] at hs hback
      obtain ⟨u, hadv, hu⟩ := hs.advance TokenKind.noConfusion
      replace hrun := bind_known hrun hadv
      replace hu : At inp (m.banked 0) (munch (mutText isMut ++ inner.halves ++ K) ++ rest) u := hu
      rw [List.append_assoc, munch_mut, List.append_assoc] at hu
      have hmut : nextKind (munch (inner.halves ++ K) ++ rest) ≠ .mut := by
        obtain ⟨l, tl, hl, hstart⟩ := halves_begin inner
        rw [hl, List.cons_append, munch_cons (startsType_ne hstart rfl)]
        exact startsType_ne hstart rfl
      obtain ⟨v, hacc, hv⟩ := hu.mut hmut
      replace hrun := bind_known hrun hacc
      obtain ⟨x, w, hx, hrun⟩ := bind_some hrun
      have hforward : Forward w s' := Stays.spanned w _ s' hrun
      obtain ⟨span, rfl⟩ := spanned_some hrun
      have hlt : (munch (inner.halves ++ K) ++ rest).length <
          (symbol .amp :: munch (mutText isMut ++ inner.halves ++ K) ++ rest).length := by
        rw [List.append_assoc, munch_mut]
        simp only [List.length_append, List.length_cons]
        omega
      rw [Ty.plain, TypeText.tree, Ty.ref.injEq] at heq
      obtain ⟨hlegible, htook⟩ := hback inner K rest v w x hv hlt hx heq.2.2
      exact ⟨hlegible, fun h => (htook h).forward hforward⟩

theorem parseType_back : TypesBack inp m inp.loopFuel inp.parseType := by
  intro type K rest s s' result hs hM hrun heq
  exact typeLevel_back _ type K rest s s' result hs (Nat.lt_succ_of_lt hM) hrun heq

/-- A closed type fits what follows it exactly when it is read back. -/
theorem parseClosedType_back {type : TypeText} {result : Ty} (hm : m.bank = 0)
    (hs : At inp m (munch type.halves ++ ls) s)
    (hrun : inp.parseClosedType s = .ok (some result, s'))
    (heq : result.plain = type.tree) :
    type.legible = true ∧ (type.steals = true → TookComma inp ls s') := by
  have hmode : m.banked 0 = m := by
    cases m
    exact congrArg (Mode.mk · _ _) hm.symm
  rw [← hmode, ← List.append_nil type.halves] at hs
  obtain ⟨x, u, hx, hrun⟩ := bind_some hrun
  obtain ⟨n, v, hn, hrun⟩ := bind_some hrun
  cases hn
  split at hrun
  · obtain ⟨-, v1, -, hrun⟩ := bind_some hrun
    obtain ⟨-, v2, -, hrun⟩ := bind_some hrun
    cases hrun
  · cases hrun
    exact parseType_back type [] ls s s' result hs hs.lt_fuel hx heq

end Alcy.Parser
