import Alcy.Parser.Totality

/-! # Reading back

What a parse function makes of tokens that spell something. The parser sees of a token its kind and
its text; a state stands before lexemes if these are all that is ahead. `Gives` says that a parse
function succeeds from a state, with what is claimed of its value and of where it stops; there is one
rule for each step of the cursor. -/
namespace Alcy.Parser
open Alcy.Ast Alcy.Diag
open Alcy.Lexer (Token TokenKind)
open PM

/-! ## Lexemes -/

/-- What the parser sees of a token. -/
structure Lexeme where
  kind : TokenKind
  text : String
  deriving Repr, DecidableEq

/-- The kinds whose spelling goes into the tree. -/
def spelled : TokenKind → Bool
  | .ident | .self | .super | .package | .selfType | .integer | .float | .string | .char
  | .true | .false => true
  | _ => false

def Input.lexeme (inp : Input) (t : Token) : Lexeme :=
  ⟨t.kind, if spelled t.kind then inp.text t.span else ""⟩

/-- A lexeme of which only the kind matters. -/
def symbol (kind : TokenKind) : Lexeme := ⟨kind, ""⟩

@[simp] theorem symbol_kind (kind : TokenKind) : (symbol kind).kind = kind := rfl

theorem Input.lexeme_text {inp : Input} {t : Token} {l : Lexeme} (h : inp.lexeme t = l)
    (hl : spelled l.kind = true) : inp.text t.span = l.text := by
  subst h
  exact (if_pos hl).symm

/-- A kind that the cursor does not pass over. -/
def significant (kind : TokenKind) : Bool :=
  kind != .error && kind != .docComment && !isReserved kind

/-- Lexemes up to the end of the file. -/
inductive Stream : List Lexeme → Prop where
  | eof (text : String) : Stream [⟨.eof, text⟩]
  | cons {l : Lexeme} {ls : List Lexeme} : significant l.kind = true → l.kind ≠ .eof → Stream ls →
      Stream (l :: ls)

theorem Stream.of (ls : List Lexeme) (h : ∀ l ∈ ls, significant l.kind = true ∧ l.kind ≠ .eof)
    (text : String) : Stream (ls ++ [⟨.eof, text⟩]) := by
  induction ls with
  | nil => exact .eof text
  | cons l ls ih =>
    have hl := h l List.mem_cons_self
    exact .cons hl.1 hl.2 (ih fun l' hl' => h l' (List.mem_cons_of_mem l hl'))

/-- The kind of the next lexeme. -/
def nextKind (ls : List Lexeme) : TokenKind := (ls.head?.map (·.kind)).getD .eof

@[simp] theorem nextKind_cons (l : Lexeme) (ls : List Lexeme) : nextKind (l :: ls) = l.kind := rfl

theorem Stream.ne_nil {ls : List Lexeme} (h : Stream ls) : ls ≠ [] := by
  cases h with
  | eof => exact List.cons_ne_nil _ _
  | cons => exact List.cons_ne_nil _ _

theorem Stream.tail {l : Lexeme} {ls : List Lexeme} (h : Stream (l :: ls)) (hl : l.kind ≠ .eof) :
    Stream ls := by
  cases h with
  | eof => exact absurd rfl hl
  | cons _ _ h => exact h

theorem Stream.live {l : Lexeme} {ls : List Lexeme} (h : Stream (l :: ls)) (hls : ls ≠ []) :
    l.kind ≠ .eof := by
  cases h with
  | eof => exact absurd rfl hls
  | cons _ h _ => exact h

theorem Stream.head {l : Lexeme} {ls : List Lexeme} (h : Stream (l :: ls)) :
    significant l.kind = true := by
  cases h with
  | eof => rfl
  | cons h _ _ => exact h

/-! ## Where a state stands -/

/-- What a parse function finds and leaves besides the cursor. -/
structure Mode where
  bank : Nat
  allow : Bool
  bag : DiagBag

/-- The parser stands before these lexemes. -/
structure At (inp : Input) (m : Mode) (ls : List Lexeme) (s : PState) : Prop where
  ahead : (inp.tokens.drop s.pos).map inp.lexeme = ls
  stream : Stream ls
  bank : s.bankedGt = m.bank
  allow : s.allowStructLit = m.allow
  bag : s.bag = m.bag

variable {inp : Input} {m : Mode} {l : Lexeme} {ls ls' : List Lexeme} {s s' : PState}
  {α β : Type}

theorem At.count (h : At inp m ls s) : s.pos + ls.length = inp.count := by
  have hlen := congrArg List.length h.ahead
  rw [List.length_map, List.length_drop] at hlen
  have hpos := List.length_pos_iff.2 h.stream.ne_nil
  rw [Input.count]
  omega

theorem At.lt (h : At inp m ls s) : s.pos < inp.count := by
  have hpos := List.length_pos_iff.2 h.stream.ne_nil
  have := h.count
  omega

/-- With fewer lexemes ahead, the cursor is further on. -/
theorem At.pos_lt {m' : Mode} (h : At inp m ls s) (h' : At inp m' ls' s')
    (hlt : ls'.length < ls.length) : s.pos < s'.pos := by
  have := h.count
  have := h'.count
  omega

theorem At.token (h : At inp m (l :: ls) s) :
    ∃ t, inp.tokens[s.pos]? = some t ∧ inp.lexeme t = l ∧
      (inp.tokens.drop (s.pos + 1)).map inp.lexeme = ls := by
  obtain ⟨t, ht⟩ := getElem?_of_lt h.lt
  have hahead := h.ahead
  rw [List.drop_eq_getElem_cons (List.getElem?_eq_some_iff.1 ht).1, List.map_cons,
    List.cons.injEq] at hahead
  rw [(List.getElem?_eq_some_iff.1 ht).2] at hahead
  exact ⟨t, ht, hahead.1, hahead.2⟩

/-- The next state is the cursor one token further: nothing ahead is passed over. -/
theorem At.advance (h : At inp m (l :: ls) s) (hl : l.kind ≠ .eof) :
    ∃ s', inp.advance s = .ok (some (), s') ∧ At inp m ls s' := by
  obtain ⟨t, ht, hlex, hrest⟩ := h.token
  have hkind : t.kind = l.kind := congrArg Lexeme.kind hlex
  have hstream := h.stream.tail hl
  have hskip : ∀ u : PState, u.pos = s.pos + 1 → inp.skipInsignificant u = u := by
    intro u hu
    obtain ⟨l', ls', rfl⟩ := List.exists_cons_of_ne_nil hstream.ne_nil
    rw [Input.skipInsignificant, hu]
    obtain ⟨t', ts, hdrop, hlex', -⟩ := List.map_eq_cons_iff.1 hrest
    have hsig := hstream.head
    rw [← hlex', significant, Bool.and_eq_true, Bool.and_eq_true, bne_iff_ne, bne_iff_ne,
      Bool.not_eq_true'] at hsig
    obtain ⟨⟨herr, hdoc⟩, hres⟩ := hsig
    change t'.kind ≠ .error at herr
    change t'.kind ≠ .docComment at hdoc
    change isReserved t'.kind = false at hres
    rw [hdrop, Input.skipFrom, if_neg (by simp [herr, hdoc]), if_neg (by simp [hres])]
  refine ⟨{ s with pos := s.pos + 1, previousSpan := t.span }, ?_, hrest, hstream, h.bank, h.allow,
    h.bag⟩
  simp only [Input.advance, ht, hkind, if_neg hl]
  rw [hskip _ rfl]

/-! ## Giving a value -/

/-- The parse function succeeds, and its value and the state it leaves are as claimed. -/
def Gives (p : PM α) (s : PState) (Q : α → PState → Prop) : Prop :=
  ∃ a s', p s = .ok (some a, s') ∧ Q a s'

variable {p : PM α} {f : α → PM β} {Q : α → PState → Prop} {R : β → PState → Prop}

theorem Gives.pure {a : α} (h : Q a s) : Gives (pure a) s Q := ⟨a, s, rfl, h⟩

theorem Gives.step {a : α} (hp : p s = .ok (some a, s')) (h : Gives (f a) s' R) :
    Gives (p >>= f) s R := by
  obtain ⟨b, u, hb, hR⟩ := h
  refine ⟨b, u, ?_, hR⟩
  rw [bind_run, hp]
  exact hb

theorem Gives.bind (hp : Gives p s Q) (h : ∀ a s', Q a s' → Gives (f a) s' R) :
    Gives (p >>= f) s R := by
  obtain ⟨a, u, ha, hQ⟩ := hp
  exact .step ha (h a u hQ)

theorem Gives.mono {Q' : α → PState → Prop} (h : Gives p s Q) (hq : ∀ a s', Q a s' → Q' a s') :
    Gives p s Q' := by
  obtain ⟨a, u, ha, hQ⟩ := h
  exact ⟨a, u, ha, hq a u hQ⟩

/-- What is known of the first part of a run. -/
theorem bind_known {a : α} {u : PState} {b : β} (h : (p >>= f) s = .ok (some b, s'))
    (hp : p s = .ok (some a, u)) : f a u = .ok (some b, s') := by
  rw [bind_run, hp] at h
  exact h

theorem Gives.of_run {a : α} (h : Gives p s Q) (hrun : p s = .ok (some a, s')) : Q a s' := by
  obtain ⟨b, u, hb, hQ⟩ := h
  rw [hrun] at hb
  cases hb
  exact hQ

/-- The guard lets a call through that comes after its mark. -/
theorem Gives.after {mark : Nat} (h : Gives p s Q) (hlt : mark < s.pos) :
    Gives (p.after mark) s Q := by
  obtain ⟨a, u, ha, hQ⟩ := h
  exact ⟨a, u, by rw [PM.after, if_neg (Nat.not_le_of_lt hlt), ha], hQ⟩

theorem Gives.yes {c : Prop} [Decidable c] {p' : PM α} (hc : c) (h : Gives p s Q) :
    Gives (if c then p else p') s Q := by
  rwa [if_pos hc]

theorem Gives.no {c : Prop} [Decidable c] {p' : PM α} (hc : ¬ c) (h : Gives p' s Q) :
    Gives (if c then p else p') s Q := by
  rwa [if_neg hc]

theorem Gives.here {f : Nat → PM β} (h : Gives (f s.pos) s R) : Gives (PM.here >>= f) s R :=
  .step rfl h

/-! ## Steps of the cursor -/

theorem Gives.peek {f : Token → PM β} (h : At inp m (l :: ls) s)
    (hf : ∀ t, inp.lexeme t = l → Gives (f t) s R) : Gives (inp.peek >>= f) s R := by
  obtain ⟨t, ht, hlex, -⟩ := h.token
  exact .step (peek_run ht) (hf t hlex)

theorem Gives.atEnd {f : Bool → PM β} (h : At inp m (l :: ls) s)
    (hf : Gives (f (l.kind == .eof)) s R) : Gives (inp.atEnd >>= f) s R := by
  obtain ⟨t, ht, hlex, -⟩ := h.token
  have hkind : t.kind = l.kind := congrArg Lexeme.kind hlex
  exact .step (atEnd_run ht) (by rwa [hkind])

theorem At.check (h : At inp m ls s) {kind : TokenKind} (hkind : kind ≠ .eof) :
    inp.check kind s = .ok (some (nextKind ls == kind), s) := by
  obtain ⟨l, rest, rfl⟩ := List.exists_cons_of_ne_nil h.stream.ne_nil
  obtain ⟨t, ht, hlex, -⟩ := h.token
  have hk : t.kind = l.kind := congrArg Lexeme.kind hlex
  rw [check_run ht, hk, nextKind_cons]
  by_cases heof : l.kind = .eof
  · have hne : (TokenKind.eof == kind) = false := by
      rw [beq_eq_false_iff_ne]
      exact hkind.symm
    rw [heof, hne, Bool.and_false]
  · rw [bne_iff_ne.2 heof, Bool.true_and]

theorem Gives.check {f : Bool → PM β} {kind : TokenKind} (h : At inp m ls s) (hkind : kind ≠ .eof)
    (hf : Gives (f (nextKind ls == kind)) s R) : Gives (inp.check kind >>= f) s R :=
  .step (h.check hkind) hf

theorem Gives.advance {f : Unit → PM β} (h : At inp m (l :: ls) s) (hl : l.kind ≠ .eof)
    (hf : ∀ s', At inp m ls s' → Gives (f ()) s' R) : Gives (inp.advance >>= f) s R := by
  obtain ⟨s', hrun, hs'⟩ := h.advance hl
  exact .step hrun (hf s' hs')

theorem At.accept_yes (h : At inp m (l :: ls) s) (hl : l.kind ≠ .eof) :
    ∃ s', inp.accept l.kind s = .ok (some true, s') ∧ At inp m ls s' := by
  obtain ⟨s', hrun, hs'⟩ := h.advance hl
  refine ⟨s', ?_, hs'⟩
  rw [Input.accept, bind_run, h.check hl, nextKind_cons, beq_self_eq_true]
  simp only [if_true]
  rw [bind_run, hrun]
  rfl

theorem At.accept_no (h : At inp m ls s) {kind : TokenKind} (hkind : kind ≠ .eof)
    (hne : nextKind ls ≠ kind) : inp.accept kind s = .ok (some false, s) := by
  rw [Input.accept, bind_run, h.check hkind, beq_eq_false_iff_ne.2 hne]
  rfl

theorem Gives.accept {f : Bool → PM β} (h : At inp m (l :: ls) s) (hl : l.kind ≠ .eof)
    (hf : ∀ s', At inp m ls s' → Gives (f true) s' R) : Gives (inp.accept l.kind >>= f) s R := by
  obtain ⟨s', hrun, hs'⟩ := h.accept_yes hl
  exact .step hrun (hf s' hs')

theorem Gives.decline {f : Bool → PM β} {kind : TokenKind} (h : At inp m ls s)
    (hkind : kind ≠ .eof) (hne : nextKind ls ≠ kind) (hf : Gives (f false) s R) :
    Gives (inp.accept kind >>= f) s R :=
  .step (h.accept_no hkind hne) hf

theorem At.expect (h : At inp m (l :: ls) s) (hl : l.kind ≠ .eof) (what : String) :
    ∃ s', inp.expect l.kind what s = .ok (some (), s') ∧ At inp m ls s' := by
  obtain ⟨s', hrun, hs'⟩ := h.accept_yes hl
  refine ⟨s', ?_, hs'⟩
  rw [Input.expect, bind_run, hrun]
  rfl

theorem Gives.expect {f : Unit → PM β} {what : String} (h : At inp m (l :: ls) s)
    (hl : l.kind ≠ .eof) (hf : ∀ s', At inp m ls s' → Gives (f ()) s' R) :
    Gives (inp.expect l.kind what >>= f) s R := by
  obtain ⟨s', hrun, hs'⟩ := h.expect hl what
  exact .step hrun (hf s' hs')

theorem Gives.spanFrom {mark : Nat} {f : Span → PM β} (hmark : mark < inp.count)
    (h : ∀ span, Gives (f span) s R) : Gives (inp.spanFrom mark >>= f) s R := by
  have hrun : ∃ span, inp.spanFrom mark s = .ok (some span, s) := by
    obtain ⟨t, ht⟩ := getElem?_of_lt hmark
    simp only [Input.spanFrom, ht]
    exact ⟨_, rfl⟩
  obtain ⟨span, hspan⟩ := hrun
  exact .step hspan (h span)

/-- A result that is put together with its span. -/
theorem Gives.spanned {mark : Nat} {f : Span → α} (hmark : mark < inp.count)
    (h : ∀ span, Q (f span) s) :
    Gives (inp.spanFrom mark >>= fun span => Pure.pure (f span)) s Q :=
  .spanFrom hmark fun span => .pure (h span)

theorem Gives.map {g : α → β} (h : Gives p s fun a s' => R (g a) s') : Gives (g <$> p) s R := by
  obtain ⟨a, u, ha, hR⟩ := h
  refine ⟨g a, u, ?_, hR⟩
  change (p >>= fun a => Pure.pure (g a)) s = _
  rw [bind_run, ha]
  rfl

/-- Nothing to recover from. -/
theorem Gives.recovered {f : Option α → PM β} (hp : Gives p s Q)
    (h : ∀ a s', Q a s' → Gives (f (some a)) s' R) : Gives (inp.orSynchronize p >>= f) s R := by
  obtain ⟨a, u, ha, hQ⟩ := hp
  refine .step ?_ (h a u hQ)
  rw [Input.orSynchronize, bind_run, attempt, ha]
  rfl

/-! ## Loops -/

variable {step : α → PM (α × Bool)} {acc acc' : α} {fuel : Nat}

theorem Gives.stop (h : Gives (step acc) s fun r s' => r.2 = false ∧ Q r.1 s') :
    Gives (loopM step (fuel + 1) acc) s Q := by
  obtain ⟨⟨a, more⟩, s', hrun, hmore, hq⟩ := h
  obtain rfl : more = false := hmore
  exact ⟨a, s', by simp only [loopM, hrun], hq⟩

theorem Gives.round (h : Gives (step acc) s fun r s' =>
      r.2 = true ∧ s.pos < s'.pos ∧ Gives (loopM step fuel r.1) s' Q) :
    Gives (loopM step (fuel + 1) acc) s Q := by
  obtain ⟨⟨a, more⟩, s', hrun, hmore, hlt, b, u, hb, hq⟩ := h
  obtain rfl : more = true := hmore
  exact ⟨b, u, by simp only [loopM, hrun, if_neg (Nat.not_le_of_lt hlt), hb], hq⟩

theorem At.lt_fuel (h : At inp m ls s) : ls.length < inp.loopFuel := by
  have := h.count
  rw [Input.count] at this
  rw [Input.loopFuel]
  omega

/-! ## Text that is taken

`Takes` says that a parse function takes a text, before a lexeme of a given kind, when fewer than a
given number of lexemes are ahead: what a call further down is known to do. -/

/-- The parse function takes the text, its value is good, and what follows is left. -/
def Takes (inp : Input) (m : Mode) (M : Nat) (p : PM α) (text : List Lexeme) (k : TokenKind)
    (good : α → Prop) : Prop :=
  ∀ ls s, At inp m (text ++ ls) s → (text ++ ls).length < M → nextKind ls = k →
    Gives p s fun a s' => good a ∧ At inp m ls s'

variable {M : Nat} {text : List Lexeme} {k : TokenKind} {good : α → Prop}

/-- The guard of a call from a place with more lexemes ahead. -/
theorem Takes.after (h : Takes inp m M p text k good) (hs : At inp m ls s) (hM : ls.length ≤ M) :
    Takes inp m ls.length (p.after s.pos) text k good := by
  intro ls' s' hs' hlt hk
  exact (h ls' s' hs' (Nat.lt_of_lt_of_le hlt hM) hk).after (hs.pos_lt hs' hlt)

theorem Takes.mono {good' : α → Prop} (h : Takes inp m M p text k good)
    (hg : ∀ a, good a → good' a) : Takes inp m M p text k good' := by
  intro ls s hs hlt hk
  exact (h ls s hs hlt hk).mono fun a _ ha => ⟨hg a ha.1, ha.2⟩

theorem Takes.fewer {M' : Nat} (h : Takes inp m M p text k good) (hM : M' ≤ M) :
    Takes inp m M' p text k good :=
  fun ls s hs hlt hk => h ls s hs (Nat.lt_of_lt_of_le hlt hM) hk

/-! ## Lists -/

/-- Texts with commas between them, and one after the last if wanted. -/
def commas (trailing : Bool) : List (List Lexeme) → List Lexeme
  | [] => []
  | text :: texts =>
    text ++ (if texts.isEmpty && !trailing then [] else [symbol .comma]) ++ commas trailing texts

/-- What holds of each element and the kind after it: the comma, or what closes the list. -/
def Followed {σ : Type} (close : TokenKind) (trailing : Bool) (R : σ → TokenKind → Prop) :
    List σ → Prop
  | [] => True
  | x :: xs => R x (if xs.isEmpty && !trailing then close else .comma) ∧
    Followed close trailing R xs

theorem Followed.imp {σ : Type} {close : TokenKind} {trailing : Bool}
    {R R' : σ → TokenKind → Prop} (h : ∀ x k, R x k → R' x k) :
    ∀ {xs : List σ}, Followed close trailing R xs → Followed close trailing R' xs
  | [], _ => trivial
  | x :: _, hx => ⟨h x _ hx.1, hx.2.imp h⟩

/-- The text begins with a lexeme that does not close the list. -/
def Begins (close : TokenKind) (text : List Lexeme) : Prop :=
  ∃ l ls, text = l :: ls ∧ l.kind ≠ close ∧ l.kind ≠ .eof

theorem Gives.closed {p p' : PM β} {close : TokenKind} (h : At inp m ls s) (hne : close ≠ .eof)
    (hk : nextKind ls = close) (hp : Gives p s R) :
    Gives (inp.check close >>= fun a => inp.atEnd >>= fun b => if a || b then p else p') s R := by
  obtain ⟨l, rest, rfl⟩ := List.exists_cons_of_ne_nil h.stream.ne_nil
  refine .check h hne (.atEnd h (.yes ?_ hp))
  rw [hk, beq_self_eq_true, Bool.true_or]

theorem Gives.unclosed {p p' : PM β} {close : TokenKind} (h : At inp m (l :: ls) s)
    (hne : close ≠ .eof) (hk : l.kind ≠ close) (hl : l.kind ≠ .eof) (hp : Gives p' s R) :
    Gives (inp.check close >>= fun a => inp.atEnd >>= fun b => if a || b then p else p') s R := by
  refine .check h hne (.atEnd h (.no ?_ hp))
  rw [nextKind_cons, beq_eq_false_iff_ne.2 hk, beq_eq_false_iff_ne.2 hl]
  exact Bool.false_ne_true

namespace Input

variable (inp : Input)

/-- A round of the loop in `commaRest`. -/
def restRound (close : TokenKind) (item : PM α) (acc : List α) : PM (List α × Bool) := do
  if (← inp.check close) || (← inp.atEnd) then return (acc, false)
  else
    let x ← item
    if ← inp.accept .comma then return (acc ++ [x], true)
    else return (acc ++ [x], false)

/-- A round of the loop in `commaList`. -/
def listRound (closed : PM Bool) (item : PM α) (acc : List α) : PM (List α × Bool) := do
  let x ← item
  if ← inp.accept .comma then
    if ← closed then return (acc ++ [x], false)
    else return (acc ++ [x], true)
  else return (acc ++ [x], false)

theorem commaRest_eq (close : TokenKind) (item : PM α) (init : List α) :
    inp.commaRest close item init = loopM (inp.restRound close item) inp.loopFuel init := rfl

theorem commaList_eq (closed : PM Bool) (item : PM α) :
    inp.commaList closed item =
      closed >>= fun c => if c then Pure.pure [] else loopM (inp.listRound closed item) inp.loopFuel [] :=
  rfl

end Input

section Lists

variable {σ τ : Type} {lex : σ → List Lexeme} {see : α → τ} {tree : σ → τ} {close : TokenKind}
  {trailing : Bool} {item : PM α}

/-- The element of a list and what is good of it. -/
def TakesEach (inp : Input) (m : Mode) (M : Nat) (item : PM α) (lex : σ → List Lexeme)
    (see : α → τ) (tree : σ → τ) (x : σ) (k : TokenKind) : Prop :=
  Takes inp m M item (lex x) k fun a => see a = tree x

theorem restRounds_give (hclose : close ≠ .comma) (hne : close ≠ .eof) {xs : List σ}
    (hstart : ∀ x ∈ xs, Begins close (lex x))
    (hitems : Followed close trailing (TakesEach inp m M item lex see tree) xs) {acc : List α}
    {fuel : Nat} (hs : At inp m (commas trailing (xs.map lex) ++ ls) s)
    (hM : (commas trailing (xs.map lex) ++ ls).length < M)
    (hfuel : (commas trailing (xs.map lex) ++ ls).length < fuel) (hk : nextKind ls = close) :
    Gives (loopM (inp.restRound close item) fuel acc) s fun as s' =>
      as.map see = acc.map see ++ xs.map tree ∧ At inp m ls s' := by
  induction xs generalizing s acc fuel with
  | nil =>
    obtain ⟨fuel, rfl⟩ := Nat.exists_eq_succ_of_ne_zero (Nat.ne_zero_of_lt hfuel)
    refine .stop (.closed hs hne hk (.pure ⟨rfl, ?_, hs⟩))
    exact (List.append_nil _).symm
  | cons x xs ih =>
    obtain ⟨fuel, rfl⟩ := Nat.exists_eq_succ_of_ne_zero (Nat.ne_zero_of_lt hfuel)
    obtain ⟨l, tl, hlex, hlk, hle⟩ := hstart x List.mem_cons_self
    have hx := hitems.1
    have hhead : At inp m (l :: (tl ++ ((if (xs.map lex).isEmpty && !trailing then []
        else [symbol .comma]) ++ commas trailing (xs.map lex) ++ ls))) s := by
      simpa only [List.map_cons, commas, hlex, List.append_assoc, List.cons_append] using hs
    rw [List.map_cons, commas, List.append_assoc, List.append_assoc, List.isEmpty_map] at hs hM hfuel
    by_cases hlast : (xs.isEmpty && !trailing) = true
    · obtain rfl : xs = [] := List.isEmpty_iff.1 (Bool.and_eq_true _ _ ▸ hlast).1
      rw [if_pos hlast] at hs hM hx
      refine .stop (.unclosed hhead hne hlk hle ?_)
      refine .bind (hx ls s hs hM hk) fun a s' ha => ?_
      refine .decline ha.2 TokenKind.noConfusion (hk ▸ hclose) ?_
      refine .no Bool.false_ne_true (.pure ⟨rfl, ?_, ha.2⟩)
      rw [List.map_append, List.map_singleton, ha.1]
      rfl
    · rw [if_neg hlast] at hs hM hfuel hx
      refine .round (.unclosed hhead hne hlk hle ?_)
      refine .bind (hx _ s hs hM rfl) fun a s' ha => ?_
      refine .accept ha.2 TokenKind.noConfusion
        fun s2 (hs2 : At inp m (commas trailing (xs.map lex) ++ ls) s2) => ?_
      refine .yes rfl (.pure ⟨rfl, hs.pos_lt hs2 ?_, ?_⟩)
      · simp only [List.length_append, List.length_cons, List.length_nil]
        omega
      · simp only [List.length_append, List.length_cons, List.length_nil] at hM hfuel
        refine (ih (fun y hy => hstart y (List.mem_cons_of_mem _ hy)) hitems.2 hs2
          ?_ ?_).mono fun as s3 has => ⟨?_, has.2⟩
        · simp only [List.length_append]
          omega
        · simp only [List.length_append]
          omega
        · rw [has.1, List.map_append, List.map_singleton, ha.1, List.map_cons, List.append_assoc]
          rfl

theorem Takes.commaRest (hclose : close ≠ .comma) (hne : close ≠ .eof) {xs : List σ}
    (hstart : ∀ x ∈ xs, Begins close (lex x))
    (hitems : Followed close trailing (TakesEach inp m M item lex see tree) xs) (init : List α) :
    Takes inp m M (inp.commaRest close item init) (commas trailing (xs.map lex)) close
      fun as => as.map see = init.map see ++ xs.map tree :=
  fun _ _ hs hM hk => restRounds_give hclose hne hstart hitems hs hM hs.lt_fuel hk

theorem listRounds_give (hclose : close ≠ .comma) (hne : close ≠ .eof) {xs : List σ}
    (hxs : xs ≠ []) (hstart : ∀ x ∈ xs, Begins close (lex x))
    (hitems : Followed close trailing (TakesEach inp m M item lex see tree) xs) {acc : List α}
    {fuel : Nat} (hs : At inp m (commas trailing (xs.map lex) ++ ls) s)
    (hM : (commas trailing (xs.map lex) ++ ls).length < M)
    (hfuel : (commas trailing (xs.map lex) ++ ls).length < fuel) (hk : nextKind ls = close) :
    Gives (loopM (inp.listRound (inp.check close) item) fuel acc) s fun as s' =>
      as.map see = acc.map see ++ xs.map tree ∧ At inp m ls s' := by
  induction xs generalizing s acc fuel with
  | nil => exact absurd rfl hxs
  | cons x xs ih =>
    obtain ⟨fuel, rfl⟩ := Nat.exists_eq_succ_of_ne_zero (Nat.ne_zero_of_lt hfuel)
    have hx := hitems.1
    rw [List.map_cons, commas, List.append_assoc, List.append_assoc, List.isEmpty_map] at hs hM hfuel
    by_cases hlast : (xs.isEmpty && !trailing) = true
    · obtain rfl : xs = [] := List.isEmpty_iff.1 (Bool.and_eq_true _ _ ▸ hlast).1
      rw [if_pos hlast] at hs hM hx
      refine .stop (.bind (hx ls s hs hM hk) fun a s' ha => ?_)
      refine .decline ha.2 TokenKind.noConfusion (hk ▸ hclose) ?_
      refine .no Bool.false_ne_true (.pure ⟨rfl, ?_, ha.2⟩)
      rw [List.map_append, List.map_singleton, ha.1]
      rfl
    · rw [if_neg hlast] at hs hM hfuel hx
      simp only [List.length_append, List.length_cons, List.length_nil] at hfuel
      cases xs with
      | nil =>
        -- the comma after the last element
        refine .stop (.bind (hx _ s hs hM rfl) fun a s' ha => ?_)
        refine .accept ha.2 TokenKind.noConfusion fun s2 (hs2 : At inp m ls s2) => ?_
        refine .yes rfl (.check hs2 hne (.yes (beq_iff_eq.2 hk) (.pure ⟨rfl, ?_, hs2⟩)))
        rw [List.map_append, List.map_singleton, ha.1]
        rfl
      | cons y ys =>
        obtain ⟨l, tl, hlex, hlk, -⟩ := hstart y (List.mem_cons_of_mem _ List.mem_cons_self)
        refine .round (.bind (hx _ s hs hM rfl) fun a s' ha => ?_)
        refine .accept ha.2 TokenKind.noConfusion
          fun s2 (hs2 : At inp m (commas trailing ((y :: ys).map lex) ++ ls) s2) => ?_
        have hnext : nextKind (commas trailing ((y :: ys).map lex) ++ ls) ≠ close := by
          rw [List.map_cons, commas, hlex]
          exact hlk
        refine .yes rfl (.check hs2 hne (.no ?_ (.pure ⟨rfl, hs.pos_lt hs2 ?_, ?_⟩)))
        · exact fun h => hnext (beq_iff_eq.1 h)
        · simp only [List.length_append, List.length_cons, List.length_nil]
          omega
        · simp only [List.length_append, List.length_cons, List.length_nil] at hM
          refine (ih (List.cons_ne_nil y ys) (fun z hz => hstart z (List.mem_cons_of_mem _ hz))
            hitems.2 hs2 ?_ ?_).mono fun as s3 has => ⟨?_, has.2⟩
          · simp only [List.length_append]
            omega
          · simp only [List.length_append]
            omega
          · rw [has.1, List.map_append, List.map_singleton, ha.1, @List.map_cons _ _ tree x,
              List.append_assoc]
            rfl

theorem Takes.commaList (hclose : close ≠ .comma) (hne : close ≠ .eof) {xs : List σ}
    (hstart : ∀ x ∈ xs, Begins close (lex x))
    (hitems : Followed close trailing (TakesEach inp m M item lex see tree) xs) :
    Takes inp m M (inp.commaList (inp.check close) item) (commas trailing (xs.map lex)) close
      fun as => as.map see = xs.map tree := by
  intro ls s hs hM hk
  rw [Input.commaList_eq]
  cases xs with
  | nil => exact .check hs hne (.yes (beq_iff_eq.2 hk) (.pure ⟨rfl, hs⟩))
  | cons x xs =>
    obtain ⟨l, tl, hlex, hlk, -⟩ := hstart x List.mem_cons_self
    have hnext : nextKind (commas trailing ((x :: xs).map lex) ++ ls) ≠ close := by
      rw [List.map_cons, commas, hlex]
      exact hlk
    refine .check hs hne (.no (fun h => hnext (beq_iff_eq.1 h)) ?_)
    exact listRounds_give hclose hne (List.cons_ne_nil x xs) hstart hitems hs hM hs.lt_fuel hk

end Lists

end Alcy.Parser
