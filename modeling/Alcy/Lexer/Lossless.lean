import Alcy.Lexer.Steps

/-! # Lexing is lossless up to a cut-off escape

The tokens of an input lie inside it, one after the other, and leave out only
whitespace and comments, unless the input stops right after the backslash of an
escape: `lex_string` and `lex_char` then step over a byte that is not there. -/
namespace Alcy.Lexer
open Alcy.Diag

def Token.stop (t : Token) : Nat := t.span.offset + t.span.length

def Token.Covers (t : Token) (i : Nat) : Prop := t.span.offset ≤ i ∧ i < t.stop

/-- Byte `i` is whitespace or part of a comment that no token reaches into. -/
def Skipped (src : Source) (tokens : List Token) (i : Nat) : Prop :=
  isSpace (src.byte i) = true ∨ ∃ start stop, start ≤ i ∧ i < stop ∧ stop ≤ src.size ∧
    Comment (src.slice start stop) ∧ ∀ t ∈ tokens, ∀ j, start ≤ j → j < stop → ¬ t.Covers j

/-- What it means for a token list to lose nothing of its input. -/
structure Lossless (src : Source) (tokens : List Token) : Prop where
  inside : ∀ t ∈ tokens, t.stop ≤ src.size
  ordered : tokens.Pairwise fun a b => a.span.offset < b.span.offset ∧ a.stop ≤ b.span.offset
  eof : ∃ init, tokens = init ++ [⟨.eof, ⟨src.file, src.size, 0⟩⟩]
  gaps : ∀ i < src.size, (∃ t ∈ tokens, t.Covers i) ∨ Skipped src tokens i

variable {src : Source}

/-! ## Nothing is lost -/

/-- The input up to the cursor is accounted for. -/
structure Accounted (src : Source) (s : LexState) : Prop where
  inside : s.pos ≤ src.size
  stops : ∀ t ∈ s.out, t.stop ≤ s.pos
  nonempty : ∀ t ∈ s.out, 0 < t.span.length
  ordered : s.out.Pairwise fun a b => a.span.offset < b.span.offset ∧ a.stop ≤ b.span.offset
  gaps : ∀ i < s.pos, (∃ t ∈ s.out, t.Covers i) ∨ isSpace (src.byte i) = true ∨
    ∃ start stop, start ≤ i ∧ i < stop ∧ stop ≤ s.pos ∧ Comment (src.slice start stop) ∧
      ∀ t ∈ s.out, ∀ j, start ≤ j → j < stop → ¬ t.Covers j

/-- Before the end of the run: everything is accounted for and `cutOff` is still
to be decided, or the cursor has left the input through an escape. -/
def Underway (src : Source) (s : LexState) : Prop :=
  Accounted src s ∧ src.endsInEscape = src.cut .code s.pos ∨
    s.pos = src.size + 1 ∧ src.endsInEscape = true

theorem underway_start : Underway src .start :=
  .inl ⟨⟨Nat.zero_le _, by simp [LexState.start], by simp [LexState.start],
    by simp [LexState.start], fun i h => absurd h (Nat.not_lt_zero i)⟩, rfl⟩

theorem Accounted.skips {s s' : LexState} (h : Accounted src s) (hs : Skips src s s') :
    Accounted src s' := by
  have hlt := hs.lt
  refine ⟨hs.sync.inside, ?_, ?_, ?_, ?_⟩
  · rw [hs.out]
    exact fun t ht => Nat.le_trans (h.stops t ht) (by omega)
  · rw [hs.out]; exact h.nonempty
  · rw [hs.out]; exact h.ordered
  · rw [hs.out]
    intro i hi
    rcases Nat.lt_or_ge i s.pos with hlt' | hge
    · rcases h.gaps i hlt' with hc | hsp | ⟨start, stop, h1, h2, h3, h4⟩
      · exact .inl hc
      · exact .inr (.inl hsp)
      · exact .inr (.inr ⟨start, stop, h1, h2, by omega, h4⟩)
    · rcases hs.gap with hsp | hcom
      · exact .inr (.inl (hsp i hge hi))
      · refine .inr (.inr ⟨s.pos, s'.pos, hge, hi, Nat.le_refl _, hcom, fun t ht j hj _ hcov => ?_⟩)
        have := h.stops t ht
        have := hcov.2
        omega

theorem Accounted.lexes {s s' : LexState} (hsize : src.size < 2 ^ 32) (h : Accounted src s)
    (hl : Lexes src s s') (hin : s'.pos ≤ src.size) : Accounted src s' := by
  obtain ⟨kind, hout⟩ := hl.token
  have hlt := hl.lt
  obtain ⟨t, ht⟩ : ∃ t, t = Token.mk kind (src.spanAt s.pos (s'.pos - s.pos)) := ⟨_, rfl⟩
  have hoff : t.span.offset = s.pos := by
    rw [ht]; exact Nat.mod_eq_of_lt (by omega)
  have hlen : t.span.length = s'.pos - s.pos := by
    rw [ht]; exact Nat.mod_eq_of_lt (by omega)
  have hstop : t.stop = s'.pos := by rw [Token.stop, hoff, hlen]; omega
  rw [← ht] at hout
  have hmem : ∀ {u}, u ∈ s'.out ↔ u ∈ s.out ∨ u = t := by simp [hout]
  refine ⟨hin, fun u hu => ?_, fun u hu => ?_, ?_, fun i hi => ?_⟩
  · rcases hmem.mp hu with hu | rfl
    · exact Nat.le_trans (h.stops u hu) (by omega)
    · omega
  · rcases hmem.mp hu with hu | rfl
    · exact h.nonempty u hu
    · omega
  · rw [hout, List.pairwise_append]
    refine ⟨h.ordered, by simp, fun a ha b hb => ?_⟩
    rw [List.mem_singleton.mp hb, hoff]
    have h1 := h.stops a ha
    have h2 := h.nonempty a ha
    rw [Token.stop] at h1 ⊢
    omega
  · rcases Nat.lt_or_ge i s.pos with hi' | hi'
    · rcases h.gaps i hi' with ⟨u, hu, hc⟩ | hsp | ⟨start, stop, h1, h2, h3, h4, h5⟩
      · exact .inl ⟨u, hmem.mpr (.inl hu), hc⟩
      · exact .inr (.inl hsp)
      · refine .inr (.inr ⟨start, stop, h1, h2, by omega, h4, fun u hu j hj1 hj2 hc => ?_⟩)
        rcases hmem.mp hu with hu | rfl
        · exact h5 u hu j hj1 hj2 hc
        · have := hc.1
          omega
    · exact .inl ⟨t, hmem.mpr (.inr rfl), by omega, by omega⟩

theorem underway_step (hsize : src.size < 2 ^ 32) {s s' : LexState} (hlt : s.pos < src.size)
    (h : Underway src s) (hs : Step src s s') : Underway src s' ∧ s'.pos ≤ src.size + 1 := by
  obtain ⟨hacc, hcut⟩ : Accounted src s ∧ src.endsInEscape = src.cut .code s.pos := by
    rcases h with h | ⟨h, _⟩
    · exact h
    · omega
  cases hs with
  | skips hs =>
    have := hs.sync.inside
    exact ⟨.inl ⟨hacc.skips hs, hcut.trans hs.sync.cut⟩, by omega⟩
  | lexes hl =>
    rcases hl.moves with hsync | ⟨hout, htrue⟩
    · have := hsync.inside
      exact ⟨.inl ⟨hacc.lexes hsize hl hsync.inside, hcut.trans hsync.cut⟩, by omega⟩
    · exact ⟨.inr ⟨hout, hcut.trans htrue⟩, by omega⟩

theorem Accounted.lossless {s : LexState} (hsize : src.size < 2 ^ 32) (h : Accounted src s)
    (hend : s.pos = src.size) : Lossless src (src.pushSignificant .eof s.pos 0 s).out := by
  obtain ⟨t, ht⟩ : ∃ t, t = Token.mk .eof ⟨src.file, src.size, 0⟩ := ⟨_, rfl⟩
  have hout : (src.pushSignificant .eof s.pos 0 s).out = s.out ++ [t] := by
    rw [ht, hend]
    simp only [Source.pushSignificant, Source.push, Source.spanAt, Nat.mod_eq_of_lt hsize,
      Nat.zero_mod]
  have hoff : t.span.offset = src.size := by rw [ht]
  have hlen : t.span.length = 0 := by rw [ht]
  have hmem : ∀ {u}, u ∈ s.out ++ [t] ↔ u ∈ s.out ∨ u = t := by simp
  rw [hout]
  refine ⟨fun u hu => ?_, ?_, ⟨s.out, by rw [ht]⟩, fun i hi => ?_⟩
  · rcases hmem.mp hu with hu | rfl
    · exact hend ▸ h.stops u hu
    · rw [Token.stop, hoff, hlen]; omega
  · rw [List.pairwise_append]
    refine ⟨h.ordered, by simp, fun a ha b hb => ?_⟩
    rw [List.mem_singleton.mp hb, hoff]
    have h1 := h.stops a ha
    have h2 := h.nonempty a ha
    rw [Token.stop] at h1 ⊢
    omega
  · rcases h.gaps i (by omega) with ⟨u, hu, hc⟩ | hsp | ⟨start, stop, h1, h2, h3, h4, h5⟩
    · exact .inl ⟨u, hmem.mpr (.inl hu), hc⟩
    · exact .inr (.inl hsp)
    · refine .inr (.inr ⟨start, stop, h1, h2, by omega, h4, fun u hu j hj1 hj2 hc => ?_⟩)
      rcases hmem.mp hu with hu | rfl
      · exact h5 u hu j hj1 hj2 hc
      · have := hc.1
        omega

/-- **Lexing is lossless exactly up to a cut-off escape.** -/
theorem tokenize_lossless_iff (src : Source) (hsize : src.size < 2 ^ 32) :
    ∃ s, src.tokenize = some s ∧ (Lossless src s.out ↔ src.endsInEscape = false) := by
  obtain ⟨s, hrun, hs, hend⟩ := lexTokens_spec (fun s s' => underway_step hsize)
    (src.size + 2) .start underway_start (Nat.zero_le _) (by simp [LexState.start])
  refine ⟨_, by rw [Source.tokenize, hrun, Option.map_some], ?_⟩
  rcases hs with ⟨hacc, hcut⟩ | ⟨hpos, htrue⟩
  · have hpos : s.pos = src.size := Nat.le_antisymm hacc.inside hend
    rw [hcut, hpos, cut_of_le (Nat.le_refl _)]
    exact ⟨fun _ => rfl, fun _ => hpos ▸ hacc.lossless hsize hpos⟩
  · -- the final token starts one past the end, where no `u32` offset of the input is
    refine ⟨fun h => ?_, fun h => by rw [htrue] at h; cases h⟩
    obtain ⟨init, heof⟩ := h.eof
    have hlast := congrArg List.getLast? heof
    simp only [Source.pushSignificant, Source.push, List.getLast?_append, List.getLast?_singleton,
      Option.some_or, Option.some.injEq, Token.mk.injEq, Source.spanAt, hpos, Span.mk.injEq] at hlast
    omega

/-- A string literal that ends before its input does. -/
def closedString : Source := ⟨bytesOf "x := \"a\\n\" // c", 0⟩

theorem closedString_lossless : closedString.size < 2 ^ 32 ∧ ∃ s, closedString.tokenize = some s ∧
    (Lossless closedString s.out ↔ closedString.endsInEscape = false) :=
  ⟨by decide, tokenize_lossless_iff closedString (by decide)⟩

/-- `"a\`, cut off in the escape. -/
def cutString : Source := ⟨bytesOf "\"a\\", 0⟩

theorem cutString_not_lossless : cutString.size < 2 ^ 32 ∧
    ∃ s, cutString.tokenize = some s ∧ ¬ Lossless cutString s.out := by
  have hrun : (cutString.tokenize).map (·.out) =
      some [⟨.error, ⟨0, 0, 4⟩⟩, ⟨.eof, ⟨0, 4, 0⟩⟩] := by decide
  obtain ⟨s, hs, hout⟩ := Option.map_eq_some_iff.mp hrun
  refine ⟨by decide, s, hs, fun h => ?_⟩
  have := h.inside ⟨.error, ⟨0, 0, 4⟩⟩ (by rw [hout]; simp)
  exact absurd this (by decide)

end Alcy.Lexer
