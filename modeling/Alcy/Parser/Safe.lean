import Alcy.Parser.Items

/-! # Computations that cannot fault

`Safe` says of a parse function that from every position between two bounds it
ends without a fault, never moves back or past the final token, and consumes a
token whenever its result asks for one. One rule for each way the source combines
its functions; the proofs about the productions then follow their text. -/
namespace Alcy.Parser
open Alcy.Ast Alcy.Diag
open Alcy.Lexer (Token TokenKind)
open PM

/-- The tokens a parser is given: a token is `Eof` exactly when it is the last one. -/
structure EndsInEof (inp : Input) : Prop where
  nonempty : 0 < inp.tokens.length
  eof_iff : ∀ i t, inp.tokens[i]? = some t → (t.kind = .eof ↔ i + 1 = inp.tokens.length)

/-- Any tokens before a last `Eof`. -/
theorem endsInEof_append {tokens : List Token} {last : Token} {bytes : List UInt8} {file : Nat}
    (h : ∀ t ∈ tokens, t.kind ≠ .eof) (hlast : last.kind = .eof) :
    EndsInEof ⟨tokens ++ [last], bytes, file⟩ := by
  refine ⟨by simp, fun i t hi => ?_⟩
  simp only [List.length_append, List.length_singleton]
  rcases Nat.lt_trichotomy i tokens.length with hlt | rfl | hgt
  · rw [List.getElem?_append_left hlt] at hi
    exact ⟨fun ht => absurd ht (h t (List.mem_of_getElem? hi)), fun _ => by omega⟩
  · rw [List.getElem?_append_right (Nat.le_refl _), Nat.sub_self, List.getElem?_cons_zero] at hi
    cases hi
    exact ⟨fun _ => rfl, fun _ => hlast⟩
  · have := (List.getElem?_eq_some_iff.mp hi).1
    simp only [List.length_append, List.length_singleton] at this
    omega

/-- How many tokens there are. -/
def Input.count (inp : Input) : Nat := inp.tokens.length

/-- No fault from any position in `[lo, hi)`; a successful result that `consumes`
has consumed something. -/
def Safe (inp : Input) (lo hi : Nat) {α : Type} (consumes : α → Prop) (p : PM α) : Prop :=
  ∀ s, lo ≤ s.pos → s.pos < hi → s.pos < inp.count → ∃ r s', p s = .ok (r, s') ∧
    s.pos ≤ s'.pos ∧ s'.pos < inp.count ∧ ∀ a, r = some a → consumes a → s.pos < s'.pos

/-- Any result may come without a token. -/
abbrev free {α : Type} : α → Prop := fun _ => False

/-- Every result has consumed a token. -/
abbrev always {α : Type} : α → Prop := fun _ => True

/-- Safe from `lo` on. -/
abbrev Total (inp : Input) (lo : Nat) {α : Type} (p : PM α) : Prop :=
  Safe inp lo inp.count free p

/-- Safe from `lo` on, and every success consumes. -/
abbrev Consumes (inp : Input) (lo : Nat) {α : Type} (p : PM α) : Prop :=
  Safe inp lo inp.count always p

/-- Positions before the final token. -/
abbrev Input.live (inp : Input) : Nat := inp.count - 1

variable {inp : Input} {lo hi : Nat} {α β : Type} {consumes : α → Prop} {q : β → Prop}

theorem Safe.mono {lo' hi' : Nat} {consumes' : α → Prop} {p : PM α}
    (h : Safe inp lo hi consumes p) (hlo : lo ≤ lo') (hhi : hi' ≤ hi)
    (hc : ∀ a, consumes' a → consumes a) : Safe inp lo' hi' consumes' p := by
  intro s h1 h2 h3
  obtain ⟨r, s', hr, hle, hlt, hcons⟩ := h s (by omega) (by omega) h3
  exact ⟨r, s', hr, hle, hlt, fun a ha hq => hcons a ha (hc a hq)⟩

theorem Safe.from {lo' : Nat} {p : PM α} (h : Safe inp lo hi consumes p) (hlo : lo ≤ lo') :
    Safe inp lo' hi consumes p := h.mono hlo (Nat.le_refl _) fun _ => id

/-- Consuming is more than nothing is asked for. -/
theorem Safe.total {p : PM α} (h : Consumes inp lo p) : Total inp lo p :=
  h.mono (Nat.le_refl _) (Nat.le_refl _) fun _ => False.elim

/-- What holds everywhere holds before the final token. -/
theorem Safe.early {p : PM α} (h : Safe inp lo inp.count consumes p) :
    Safe inp lo hi consumes p := by
  intro s h1 _ h3
  exact h s h1 h3 h3

/-! ## Combining -/

theorem bind_run {p : PM α} {f : α → PM β} {s : PState} :
    (p >>= f) s = match p s with
      | .error e => .error e
      | .ok (none, s) => .ok (none, s)
      | .ok (some a, s) => f a s := rfl

/-- After a computation that consumed, nothing more is asked for. -/
theorem Safe.bind {p : PM α} {f : α → PM β} (hp : Safe inp lo hi always p)
    (hf : ∀ a, Total inp (lo + 1) (f a)) : Safe inp lo hi q (p >>= f) := by
  intro s h1 h2 h3
  obtain ⟨r, s', hr, hle, hlt, hcons⟩ := hp s h1 h2 h3
  rw [bind_run, hr]
  cases r with
  | none => exact ⟨none, s', rfl, hle, hlt, fun _ h => by cases h⟩
  | some a =>
    have hmove := hcons a rfl trivial
    obtain ⟨r', s'', hr', hle', hlt', _⟩ := hf a s' (by omega) hlt hlt
    exact ⟨r', s'', hr', by omega, hlt', fun _ _ _ => by omega⟩

/-- After a computation that may not have consumed, the rest has to. -/
theorem Safe.next {p : PM α} {f : α → PM β} (hp : Safe inp lo hi free p)
    (hf : ∀ a, Safe inp lo inp.count q (f a)) : Safe inp lo hi q (p >>= f) := by
  intro s h1 h2 h3
  obtain ⟨r, s', hr, hle, hlt, _⟩ := hp s h1 h2 h3
  rw [bind_run, hr]
  cases r with
  | none => exact ⟨none, s', rfl, hle, hlt, fun _ h => by cases h⟩
  | some a =>
    obtain ⟨r', s'', hr', hle', hlt', hcons'⟩ := hf a s' (by omega) hlt hlt
    exact ⟨r', s'', hr', by omega, hlt', fun b hb hq => by have := hcons' b hb hq; omega⟩

theorem safe_pure {a : α} (h : ¬ consumes a) : Safe inp lo hi consumes (pure a) :=
  fun s _ _ h3 => ⟨some a, s, rfl, Nat.le_refl _, h3,
    fun b hb hc => by cases hb; exact absurd hc h⟩

theorem total_pure {a : α} : Total inp lo (pure a : PM α) := safe_pure fun h => h

theorem safe_fail : Safe inp lo hi consumes (fail : PM α) :=
  fun s _ _ h3 => ⟨none, s, rfl, Nat.le_refl _, h3, fun _ h => by cases h⟩

theorem Safe.ite {b : Bool} {p p' : PM α} (ht : b = true → Safe inp lo hi consumes p)
    (hf : b = false → Safe inp lo hi consumes p') :
    Safe inp lo hi consumes (if b then p else p') := by
  cases b with
  | true => exact ht rfl
  | false => exact hf rfl

theorem Safe.dite {c : Prop} [Decidable c] {p p' : PM α} (ht : c → Safe inp lo hi consumes p)
    (hf : ¬ c → Safe inp lo hi consumes p') : Safe inp lo hi consumes (if c then p else p') := by
  by_cases h : c
  · rw [if_pos h]; exact ht h
  · rw [if_neg h]; exact hf h

/-- Mapping the result of a computation that consumes. -/
theorem Safe.map {p : PM α} {f : α → β} (hp : Safe inp lo hi always p) :
    Safe inp lo hi q (f <$> p) :=
  Safe.bind hp fun _ => total_pure

theorem safe_withoutStructLit {p : PM α} (hp : Safe inp lo hi consumes p) :
    Safe inp lo hi consumes (withoutStructLit p) := by
  intro s h1 h2 h3
  obtain ⟨r, s', hr, hres⟩ := hp { s with allowStructLit := false } h1 h2 h3
  exact ⟨r, { s' with allowStructLit := s.allowStructLit }, by simp only [withoutStructLit, hr],
    hres⟩

/-- The guard lets through what is safe past the mark. -/
theorem safe_after {mark : Nat} {p : PM α} (hp : Safe inp (mark + 1) hi consumes p)
    (hlo : mark + 1 ≤ lo) : Safe inp lo hi consumes (p.after mark) := by
  intro s h1 h2 h3
  obtain ⟨r, s', hr, hres⟩ := hp s (by omega) h2 h3
  exact ⟨r, s', by rw [PM.after, if_neg (by omega), hr], hres⟩

/-! ## Reading -/

/-- A computation that leaves the state alone. -/
def Reads (inp : Input) (p : PM α) : Prop := ∀ s, s.pos < inp.count → ∃ a, p s = .ok (some a, s)

theorem Reads.bind {p : PM α} {f : α → PM β} (hp : Reads inp p)
    (hf : ∀ a, Safe inp lo hi q (f a)) : Safe inp lo hi q (p >>= f) := by
  intro s h1 h2 h3
  obtain ⟨a, ha⟩ := hp s h3
  rw [bind_run, ha]
  exact hf a s h1 h2 h3

theorem reads_pure {a : α} : Reads inp (pure a) := fun _ _ => ⟨a, rfl⟩

theorem Reads.next {p : PM α} {f : α → PM β} (hp : Reads inp p) (hf : ∀ a, Reads inp (f a)) :
    Reads inp (p >>= f) := by
  intro s hs
  obtain ⟨a, ha⟩ := hp s hs
  rw [bind_run, ha]
  exact hf a s hs

theorem here_bind {f : Nat → PM β}
    (hf : ∀ mark, lo ≤ mark → mark < inp.count → Safe inp mark hi q (f mark)) :
    Safe inp lo hi q (here >>= f) := by
  intro s h1 h2 h3
  exact hf s.pos h1 h3 s (Nat.le_refl _) h2 h3

theorem reads_bankedGt : Reads inp bankedGt := fun s _ => ⟨s.bankedGt, rfl⟩
theorem reads_allowStructLit : Reads inp allowStructLit := fun s _ => ⟨s.allowStructLit, rfl⟩
theorem reads_scanLead : Reads inp inp.scanLead := fun _ _ => ⟨_, rfl⟩

theorem getElem?_of_lt {i : Nat} (h : i < inp.count) : ∃ t, inp.tokens[i]? = some t :=
  ⟨inp.tokens.get ⟨i, h⟩, List.getElem?_eq_getElem h⟩

theorem reads_spanFrom {mark : Nat} (h : mark < inp.count) : Reads inp (inp.spanFrom mark) := by
  intro s _
  obtain ⟨t, ht⟩ := getElem?_of_lt h
  simp only [Input.spanFrom, ht]
  exact ⟨_, rfl⟩

theorem peek_run {s : PState} {t : Token} (h : inp.tokens[s.pos]? = some t) :
    inp.peek s = .ok (some t, s) := by
  simp only [Input.peek, h]

theorem atEnd_run {s : PState} {t : Token} (h : inp.tokens[s.pos]? = some t) :
    inp.atEnd s = .ok (some (t.kind == .eof), s) := by
  simp only [Input.atEnd, h]

theorem check_run {s : PState} {t : Token} (h : inp.tokens[s.pos]? = some t)
    (kind : TokenKind) :
    inp.check kind s = .ok (some (t.kind != .eof && t.kind == kind), s) := by
  unfold Input.check
  rw [bind_run, atEnd_run h]
  cases hk : t.kind == .eof with
  | true => simp [bne, hk, pure]
  | false =>
    simp only [Bool.false_eq_true, if_false, bne, hk, Bool.not_false, Bool.true_and]
    rw [bind_run, peek_run h]
    rfl

theorem reads_peek : Reads inp inp.peek := fun _ hs =>
  (getElem?_of_lt hs).imp fun _ => peek_run

theorem reads_atEnd : Reads inp inp.atEnd := fun _ hs =>
  let ⟨t, ht⟩ := getElem?_of_lt hs
  ⟨t.kind == .eof, atEnd_run ht⟩

theorem reads_check (kind : TokenKind) : Reads inp (inp.check kind) := fun _ hs =>
  let ⟨t, ht⟩ := getElem?_of_lt hs
  ⟨t.kind != .eof && t.kind == kind, check_run ht kind⟩

theorem report_total (span : Span) (message : String) : Total inp lo (report span message) :=
  fun _ _ _ h3 => ⟨some (), _, rfl, Nat.le_refl _, h3, fun _ _ => False.elim⟩

theorem reportExpected_total (what : String) : Total inp lo (inp.reportExpected what) :=
  Reads.bind reads_atEnd fun _ => Safe.ite
    (fun _ => here_bind fun _ _ hm => Reads.bind (reads_spanFrom hm) fun _ => report_total _ _)
    fun _ => Reads.bind reads_peek fun _ => report_total _ _

theorem modify_bind {g : PState → PState} {f : Unit → PM β} (hg : ∀ s, (g s).pos = s.pos)
    (hf : Safe inp lo hi q (f ())) : Safe inp lo hi q (modify g >>= f) := by
  intro s h1 h2 h3
  obtain ⟨r, s', hr, hres⟩ := hf (g s) (by rw [hg]; exact h1) (by rw [hg]; exact h2)
    (by rw [hg]; exact h3)
  rw [hg] at hres
  exact ⟨r, s', hr, hres⟩

/-! ## Consuming -/

theorem skipFrom_pos (tokens : List Token) (s : PState) :
    s.pos ≤ (inp.skipFrom tokens s).pos ∧ (inp.skipFrom tokens s).pos ≤ s.pos + tokens.length ∧
      ∀ i t, tokens[i]? = some t → t.kind = .eof → (inp.skipFrom tokens s).pos ≤ s.pos + i := by
  induction tokens generalizing s with
  | nil => exact ⟨Nat.le_refl _, Nat.le_refl _, by simp⟩
  | cons u rest ih =>
    have hstep : ∀ s' : PState, s'.pos = s.pos + 1 → u.kind ≠ .eof →
        s.pos ≤ (inp.skipFrom rest s').pos ∧
        (inp.skipFrom rest s').pos ≤ s.pos + (rest.length + 1) ∧
        ∀ i t, (u :: rest)[i]? = some t → t.kind = .eof →
          (inp.skipFrom rest s').pos ≤ s.pos + i := by
      intro s' hs' hu
      obtain ⟨h1, h2, h3⟩ := ih s'
      refine ⟨by omega, by omega, fun i t hi ht => ?_⟩
      cases i with
      | zero => cases hi; exact absurd ht hu
      | succ i =>
        have := h3 i t (by simpa using hi) ht
        omega
    unfold Input.skipFrom
    split
    · next hc => exact hstep _ rfl (by rintro hk; rw [hk] at hc; simp at hc)
    split
    · next hr => exact hstep _ rfl (by rintro hk; rw [hk] at hr; simp [isReserved] at hr)
    · exact ⟨Nat.le_refl _, Nat.le_add_right _ _, fun _ _ _ _ => Nat.le_add_right _ _⟩

/-- Skipping stops at the final token at the latest. -/
theorem skipInsignificant_pos (heof : EndsInEof inp) {s : PState} (h : s.pos < inp.count) :
    s.pos ≤ (inp.skipInsignificant s).pos ∧ (inp.skipInsignificant s).pos < inp.count := by
  obtain ⟨h1, -, h3⟩ := @skipFrom_pos inp (inp.tokens.drop s.pos) s
  obtain ⟨t, ht⟩ := getElem?_of_lt (show inp.count - 1 < inp.count by omega)
  have hk := (heof.eof_iff _ t ht).mpr (by rw [Input.count] at *; omega)
  have := h3 (inp.count - 1 - s.pos) t (by
    rw [List.getElem?_drop, show s.pos + (inp.count - 1 - s.pos) = inp.count - 1 by omega]
    exact ht) hk
  exact ⟨h1, by rw [Input.skipInsignificant]; omega⟩

variable (heof : EndsInEof inp)
include heof

theorem advance_safe : Safe inp lo inp.live always inp.advance := by
  intro s _ h2 h3
  obtain ⟨t, ht⟩ := getElem?_of_lt h3
  have hk : t.kind ≠ .eof := fun hk => by
    have := (heof.eof_iff _ t ht).mp hk
    rw [Input.live, Input.count] at h2
    omega
  rw [Input.live] at h2
  obtain ⟨h4, h5⟩ := skipInsignificant_pos heof
    (s := { s with pos := s.pos + 1, previousSpan := t.span }) (by simp only; omega)
  simp only [Input.advance, ht, hk, if_false]
  exact ⟨some (), _, rfl, by simp only at h4; omega, h5, fun _ _ _ => h4⟩

theorem advance_bind {f : Unit → PM β} (hf : Total inp (lo + 1) (f ())) :
    Safe inp lo inp.live q (inp.advance >>= f) := (advance_safe heof).bind fun _ => hf

/-- A token that is not the last one leaves room to advance. -/
theorem peek_bind {f : Token → PM β} (hlive : ∀ t, t.kind ≠ .eof → Safe inp lo inp.live q (f t))
    (hend : ∀ t, t.kind = .eof → Safe inp lo inp.count q (f t)) :
    Safe inp lo hi q (inp.peek >>= f) := by
  intro s h1 h2 h3
  obtain ⟨t, ht⟩ := getElem?_of_lt h3
  rw [bind_run, peek_run ht]
  by_cases hk : t.kind = .eof
  · exact hend t hk s h1 h3 h3
  · have := mt (heof.eof_iff _ t ht).mpr hk
    exact hlive t hk s h1 (by rw [Input.live, Input.count] at *; omega) h3

theorem peek_live {f : Token → PM β} (hf : ∀ t, t.kind ≠ .eof → Safe inp lo inp.live q (f t)) :
    Safe inp lo inp.live q (inp.peek >>= f) := by
  intro s h1 h2 h3
  obtain ⟨t, ht⟩ := getElem?_of_lt h3
  rw [bind_run, peek_run ht]
  refine hf t (fun hk => ?_) s h1 h2 h3
  have := (heof.eof_iff _ t ht).mp hk
  rw [Input.live, Input.count] at h2
  omega

theorem atEnd_bind {f : Bool → PM β} (ht : Safe inp lo inp.count q (f true))
    (hf : Safe inp lo inp.live q (f false)) : Safe inp lo hi q (inp.atEnd >>= f) := by
  intro s h1 h2 h3
  obtain ⟨t, ht'⟩ := getElem?_of_lt h3
  rw [bind_run, atEnd_run ht']
  cases hk : t.kind == .eof with
  | true => exact ht s h1 h3 h3
  | false =>
    have := mt (heof.eof_iff _ t ht').mpr (by simpa using hk)
    exact hf s h1 (by rw [Input.live, Input.count] at *; omega) h3

/-- A check that succeeds found a token that is not the last one. -/
theorem check_bind {kind : TokenKind} {f : Bool → PM β} (ht : Safe inp lo inp.live q (f true))
    (hf : Safe inp lo hi q (f false)) : Safe inp lo hi q (inp.check kind >>= f) := by
  intro s h1 h2 h3
  obtain ⟨t, hget⟩ := getElem?_of_lt h3
  rw [bind_run, check_run hget]
  cases hk : t.kind != .eof && t.kind == kind with
  | false => exact hf s h1 h2 h3
  | true =>
    have hne : t.kind ≠ .eof := by simp at hk; exact hk.1
    have := mt (heof.eof_iff _ t hget).mpr hne
    exact ht s h1 (by rw [Input.live, Input.count] at *; omega) h3

omit heof in
theorem accept_bind_eq {kind : TokenKind} {f : Bool → PM β} :
    (inp.accept kind >>= f) =
      (inp.check kind >>= fun b => if b then inp.advance >>= fun _ => f true else f false) := by
  funext s
  rw [Input.accept, bind_run, bind_run, bind_run]
  rcases inp.check kind s with e | ⟨_ | _ | _, s'⟩
  · rfl
  · rfl
  · rfl
  · simp only [if_true, bind_run]
    rcases inp.advance s' with e | ⟨_ | _, s''⟩ <;> rfl

/-- `if (match(kind))`: one token further in one branch, nothing moved in the other. -/
theorem accept_bind {kind : TokenKind} {f : Bool → PM β} (ht : Total inp (lo + 1) (f true))
    (hf : Safe inp lo hi q (f false)) : Safe inp lo hi q (inp.accept kind >>= f) := by
  rw [accept_bind_eq]
  exact check_bind heof (advance_bind heof ht) hf

theorem expect_safe (kind : TokenKind) (what : String) :
    Safe inp lo hi always (inp.expect kind what) :=
  accept_bind heof total_pure ((reportExpected_total what).early.next fun _ => safe_fail)

theorem expect_bind {kind : TokenKind} {what : String} {f : Unit → PM β}
    (hf : Total inp (lo + 1) (f ())) : Safe inp lo hi q (inp.expect kind what >>= f) :=
  (expect_safe heof kind what).bind fun _ => hf

/-- The error of a failed `expect`, where the source returns null whatever it said. -/
theorem expect_fail {kind : TokenKind} {what : String} :
    Safe inp lo hi consumes ((inp.expect kind what >>= fun _ => fail) : PM α) :=
  expect_bind heof safe_fail

/-! ## Loops and recovery -/

omit heof in
/-- A loop whose rounds consume whenever they ask for another one. -/
theorem loopM_run {step : α → PM (α × Bool)}
    (hstep : ∀ acc, Safe inp lo inp.count (fun r => r.2 = true) (step acc)) :
    ∀ (fuel : Nat) (acc : α) (s : PState), lo ≤ s.pos → s.pos < inp.count →
      inp.count < s.pos + fuel → ∃ r s', loopM step fuel acc s = .ok (r, s') ∧
        s.pos ≤ s'.pos ∧ s'.pos < inp.count := by
  intro fuel
  induction fuel with
  | zero => intro acc s _ _ h; omega
  | succ fuel ih =>
    intro acc s h1 h2 h3
    obtain ⟨r, s', hr, hle, hlt, hcons⟩ := hstep acc s h1 h2 h2
    unfold loopM
    rcases r with _ | ⟨acc', _ | _⟩
    · exact ⟨none, s', by simp only [hr], hle, hlt⟩
    · exact ⟨some acc', s', by simp only [hr], hle, hlt⟩
    · have hmove := hcons _ rfl rfl
      obtain ⟨r', s'', hr', hle', hlt'⟩ := ih acc' s' (by omega) hlt (by omega)
      refine ⟨r', s'', ?_, by omega, hlt'⟩
      simp only [hr, if_neg (Nat.not_le_of_lt hmove), hr']

omit heof in
theorem loopM_total {step : α → PM (α × Bool)} {acc : α}
    (hstep : ∀ acc, Safe inp lo inp.count (fun r => r.2 = true) (step acc)) :
    Total inp lo (loopM step inp.loopFuel acc) := by
  intro s h1 _ h3
  obtain ⟨r, s', hr, hle, hlt⟩ := loopM_run hstep inp.loopFuel acc s h1 h3
    (by rw [Input.loopFuel, Input.count]; omega)
  exact ⟨r, s', hr, hle, hlt, fun _ _ => False.elim⟩

omit heof in
/-- A loop whose first round consumes whenever it succeeds. -/
theorem loopM_consumes {step : α → PM (α × Bool)} {acc : α}
    (hfirst : Consumes inp lo (step acc))
    (hstep : ∀ acc, Safe inp lo inp.count (fun r => r.2 = true) (step acc)) :
    Consumes inp lo (loopM step inp.loopFuel acc) := by
  intro s h1 _ h3
  obtain ⟨r, s', hr, hle, hlt, hcons⟩ := hfirst s h1 h3 h3
  rw [show inp.loopFuel = inp.count + 1 from rfl]
  unfold loopM
  rcases r with _ | ⟨acc', _ | _⟩
  · exact ⟨none, s', by simp only [hr], hle, hlt, fun _ h => by cases h⟩
  · exact ⟨some acc', s', by simp only [hr], hle, hlt, fun _ _ _ => hcons _ rfl trivial⟩
  · have hmove := hcons _ rfl trivial
    obtain ⟨r', s'', hr', hle', hlt'⟩ := loopM_run hstep inp.count acc' s' (by omega) hlt (by omega)
    refine ⟨r', s'', ?_, by omega, hlt', fun _ _ _ => by omega⟩
    simp only [hr, if_neg (Nat.not_le_of_lt hmove), hr']

theorem synchronizeLoop_total : Total inp lo inp.synchronizeLoop :=
  loopM_total fun _ => atEnd_bind heof (safe_pure (by simp)) <| peek_live heof fun _ _ =>
    Safe.ite (fun _ => safe_pure (by simp)) fun _ => advance_bind heof total_pure

/-- What `synchronize` does where its loop stopped. -/
theorem synchronizeStop_safe {start : Nat} :
    Safe inp lo inp.live (fun _ => start = lo) (do
      let kind := (← inp.peek).kind
      if lo == start then inp.advance
      else if kind == .semicolon || kind == .comma then inp.advance
      else return ()) := by
  refine peek_live heof fun t _ => Safe.ite (fun _ => ?_) fun hne => Safe.ite (fun _ => ?_) fun _ => ?_
  · exact (advance_safe heof).mono (Nat.le_refl _) (Nat.le_refl _) fun _ _ => trivial
  · exact (advance_safe heof).mono (Nat.le_refl _) (Nat.le_refl _) fun _ _ => trivial
  · exact safe_pure fun h => by simp [h] at hne

/-- Recovery before the end of the file always makes progress. -/
theorem synchronize_safe : Safe inp lo inp.live always inp.synchronize := by
  intro s h1 h2 h3
  rw [Input.live] at h2
  obtain ⟨r, s', hr, hle, hlt, -⟩ := synchronizeLoop_total heof s (Nat.le_refl s.pos) h3 h3
  unfold Input.synchronize
  rw [bind_run, show here s = .ok (some s.pos, s) from rfl]
  dsimp only
  rw [bind_run, hr]
  cases r with
  | none => exact ⟨none, s', rfl, hle, hlt, fun _ h => by cases h⟩
  | some depth =>
    dsimp only
    rw [bind_run, show here s' = .ok (some s'.pos, s') from rfl]
    dsimp only
    obtain ⟨t, ht⟩ := getElem?_of_lt hlt
    rw [bind_run, atEnd_run ht]
    cases hk : t.kind == .eof with
    | true =>
      have := (heof.eof_iff _ t ht).mp (by simpa using hk)
      exact ⟨some (), s', rfl, hle, hlt, fun _ _ _ => by rw [Input.count] at h2; omega⟩
    | false =>
      have hlive := mt (heof.eof_iff _ t ht).mpr (by simpa using hk)
      obtain ⟨r, s'', hr, hle', hlt', hcons⟩ := @synchronizeStop_safe inp s'.pos heof s.pos s'
        (Nat.le_refl _) (by rw [Input.live, Input.count] at *; omega) hlt
      refine ⟨r, s'', hr, by omega, hlt', fun a ha _ => ?_⟩
      rcases Nat.lt_or_eq_of_le hle with h | h
      · omega
      · have := hcons a ha h
        omega

/-- At the end of the file it does nothing. -/
theorem synchronize_total : Total inp lo inp.synchronize := by
  refine here_bind fun start _ _ => (synchronizeLoop_total heof).next fun _ =>
    here_bind fun stop _ _ => atEnd_bind heof total_pure ?_
  exact (synchronizeStop_safe heof).mono (Nat.le_refl _) (Nat.le_refl _) fun _ => False.elim

/-- A recovering construct consumes, whether it was parsed or skipped. -/
theorem orSynchronize_safe {p : PM α} (hp : Consumes inp lo p) :
    Safe inp lo inp.live always (inp.orSynchronize p) := by
  intro s h1 h2 h3
  obtain ⟨r, s', hr, hle, hlt, hcons⟩ := hp s h1 h3 h3
  unfold Input.orSynchronize
  rw [bind_run, show attempt p s = .ok (some r, s') by simp only [attempt, hr]]
  cases r with
  | some a => exact ⟨_, s', rfl, hle, hlt, fun _ _ _ => hcons a rfl trivial⟩
  | none =>
    have htotal : Total inp s'.pos (inp.synchronize >>= fun _ => pure (none : Option α)) :=
      (synchronize_total heof).next fun _ => total_pure
    have hlive : Safe inp s'.pos inp.live always
        (inp.synchronize >>= fun _ => pure (none : Option α)) :=
      (synchronize_safe heof).bind fun _ => total_pure
    dsimp only
    rcases Nat.lt_or_eq_of_le hle with hmove | hsame
    · obtain ⟨r, s'', hr, hle', hlt', -⟩ := htotal s' (Nat.le_refl _) hlt hlt
      exact ⟨r, s'', hr, by omega, hlt', fun _ _ _ => by omega⟩
    · obtain ⟨r, s'', hr, hle', hlt', hcons⟩ := hlive s' (Nat.le_refl _) (hsame ▸ h2) hlt
      exact ⟨r, s'', hr, by omega, hlt', fun a ha h => by have := hcons a ha h; omega⟩

/-! ## Lists -/

theorem commaList_total {closed : PM Bool} {item : PM α} (hclosed : Reads inp closed)
    (hitem : Consumes inp lo item) : Total inp lo (inp.commaList closed item) := by
  refine Reads.bind hclosed fun _ => Safe.ite (fun _ => total_pure) fun _ => loopM_total fun acc => ?_
  refine hitem.bind fun x => accept_bind heof ?_ total_pure
  exact Reads.bind hclosed fun _ => Safe.ite (fun _ => total_pure) fun _ => total_pure

/-- The header of the loops that end at a closer or at the end of the file. -/
theorem closed_bind {close : TokenKind} {done more : PM β} (ht : Safe inp lo inp.count q done)
    (hf : Safe inp lo inp.live q more) :
    Safe inp lo hi q (inp.check close >>= fun b => inp.atEnd >>= fun e =>
      if b || e then done else more) := by
  refine Reads.bind (reads_check close) fun b => atEnd_bind heof ?_ ?_
  · rw [Bool.or_true]; exact ht
  · cases b with
    | true => exact ht.early
    | false => exact hf

omit heof in
/-- A round that ends its loop. -/
theorem stop_safe {acc : α} : Safe inp lo hi (fun r => r.2 = true) (pure (acc, false)) :=
  safe_pure (by simp)

theorem commaRest_total {close : TokenKind} {item : PM α} {init : List α}
    (hitem : Consumes inp lo item) : Total inp lo (inp.commaRest close item init) :=
  loopM_total fun _ => closed_bind heof stop_safe <|
    hitem.early.bind fun _ => accept_bind heof total_pure total_pure

/-- Going round again after a recovering construct. -/
theorem recover_bind {p : PM α} {f : Option α → PM β} (hp : Consumes inp lo p)
    (hf : ∀ r, Total inp (lo + 1) (f r)) :
    Safe inp lo inp.live q (inp.orSynchronize p >>= f) :=
  (orSynchronize_safe heof hp).bind hf

theorem recoverList_total {item : PM α} (hitem : Consumes inp lo item) :
    Total inp lo (inp.recoverList item) :=
  loopM_total fun _ => closed_bind heof stop_safe <| accept_bind heof total_pure <|
    recover_bind heof hitem fun r => by cases r <;> exact total_pure

end Alcy.Parser
