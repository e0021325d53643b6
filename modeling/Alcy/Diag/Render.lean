import Alcy.Diag
import Alcy.Lib.Lines
import Alcy.Lib.Print
import Mathlib.Order.Interval.Finset.Nat

/-! # Rendered diagnostics

`src/diag/render.cc`. Offsets, lines, columns and lengths are `u32`s and wrap around; a buffer may
be larger than they can count. The styles of the terminal are those of the formatting library.
-/
namespace Alcy.Diag
open Alcy.Lib Alcy.Lib.Print

/-- `static_cast<u32>`, and what arithmetic on `u32`s leaves. -/
def u32 (n : Nat) : Nat := n % 2 ^ 32

/-- Subtraction of `u32`s. -/
def sub32 (a b : Nat) : Nat := u32 (a + (2 ^ 32 - b))

def newline : UInt8 := '\n'.toUInt8

def severityText : Severity → String
  | .error => "error"
  | .warning => "warning"
  | .note => "note"

def severityCode : Severity → String
  | .error => "E"
  | .warning => "W"
  | .note => "N"

/-! ## Locating -/

structure LineInfo where
  line : Nat
  col : Nat
  text : Bytes
  deriving DecidableEq

/-- The first loop of `locate`, from place `i` on: the line, and where it starts. -/
def scanLines : Bytes → Nat → Nat → Nat → Nat × Nat
  | [], _, line, lineStart => (line, lineStart)
  | byte :: bytes, i, line, lineStart =>
    if byte = newline then scanLines bytes (i + 1) (u32 (line + 1)) (u32 (i + 1))
    else scanLines bytes (i + 1) line lineStart

/-- The second loop: the first newline from the start of the line on, below the size. -/
def scanEnd (bytes : Bytes) (lineStart size : Nat) : Nat :=
  match ((bytes.take size).drop lineStart).findIdx? (· = newline) with
  | some i => lineStart + i
  | none => size

/-- Out-of-range offsets clamp to the end of the buffer. -/
def clampOffset (bytes : Bytes) (offset : Nat) : Nat :=
  if offset > bytes.length then u32 bytes.length else offset

def locate (bytes : Bytes) (offset : Nat) : LineInfo :=
  let offset := clampOffset bytes offset
  let (line, lineStart) := scanLines (bytes.take offset) 0 1 0
  let lineEnd := scanEnd bytes lineStart (u32 bytes.length)
  ⟨line, u32 (sub32 offset lineStart + 1), (bytes.drop lineStart).take (sub32 lineEnd lineStart)⟩

/-! ## Rendering -/

structure Label where
  span : Span
  message : String

structure SourceText where
  name : Bytes
  bytes : Bytes

/-- `SourceFetch`; a file is looked up, if there is a lookup. -/
abbrev SourceFetch := Option (Nat → SourceText)

def fetchText (fetch : SourceFetch) (file : Nat) : SourceText :=
  match fetch with
  | none => ⟨[], []⟩
  | some fetch => fetch file

def SourceText.shown (source : SourceText) : Bytes :=
  if source.name = [] then utf8 "[unknown file]".toList else source.name

def printed (text : String) : Bytes := utf8 text.toList

def number (value : Nat) : Bytes := utf8 (decimal value)

def decimalWidth (value : Nat) : Nat :=
  if value ≥ 10 then decimalWidth (value / 10) + 1 else 1

def writeGutter (width : Nat) : Bytes := List.replicate width ' '.toUInt8 ++ printed " |"

/-- The length of the caret run, clipped to the rendered line. -/
def carets (bytes : Bytes) (span : Span) : Nat :=
  let info := locate bytes span.offset
  let lineOffset := clampOffset bytes span.offset
  let lineStart := sub32 lineOffset (sub32 info.col 1)
  let lineEnd := u32 (lineStart + u32 info.text.length)
  let caretEnd := u32 (lineOffset + span.length)
  let caretEnd := if caretEnd > lineEnd then lineEnd else caretEnd
  let carets := if caretEnd > lineOffset then caretEnd - lineOffset else 0
  if carets = 0 then 1 else carets

/-- The text of a line behind its number. -/
def textLine (info : LineInfo) : Bytes := number info.line ++ printed " | " ++ info.text

/-- The carets behind a gutter. -/
def caretLine (info : LineInfo) (carets : Nat) : Bytes :=
  writeGutter (decimalWidth info.line) ++ printed " " ++
    List.replicate (info.col - 1) ' '.toUInt8 ++ List.replicate carets '^'.toUInt8

/-- The two lines before the text. -/
def renderPlace (source : SourceText) (info : LineInfo) : Bytes :=
  printed " --> " ++ source.shown ++ printed ":" ++ number info.line ++ printed ":" ++
    number info.col ++ printed "\n" ++ writeGutter (decimalWidth info.line) ++ printed "\n"

/-- The part about the primary span. -/
def renderSpan (source : SourceText) (span : Span) : Bytes :=
  let info := locate source.bytes span.offset
  renderPlace source info ++ textLine info ++ printed "\n" ++
    caretLine info (carets source.bytes span) ++ printed "\n"

def renderLabel (fetch : SourceFetch) (label : Label) : Bytes :=
  let source := fetchText fetch label.span.file
  let place :=
    if source.bytes = [] then printed ":" ++ number label.span.offset
    else
      let info := locate source.bytes label.span.offset
      printed ":" ++ number info.line ++ printed ":" ++ number info.col
  printed " = note: " ++ printed label.message ++ printed " --> " ++ source.shown ++ place ++
    printed "\n"

/-- The first line; the severity is styled if there are colors. -/
def renderHeader (diag : Diagnostic) (color : Option (Severity → String → Bytes)) : Bytes :=
  let severity := severityText diag.severity
  let styled := match color with
    | none => printed severity
    | some style => style diag.severity severity
  styled ++ printed "[" ++ printed (severityCode diag.severity) ++ number diag.code ++
    printed "]: " ++ printed diag.message ++ printed "\n"

def render (diag : Diagnostic) (labels : List Label)
    (color : Option (Severity → String → Bytes)) (fetch : SourceFetch) : Bytes :=
  renderHeader diag color ++
    match diag.primarySpan with
    | none => []
    | some span =>
      let source := fetchText fetch span.file
      if source.bytes = [] then
        printed " --> " ++ source.shown ++ printed ":" ++ number span.offset ++ printed "\n"
      else renderSpan source span ++ labels.flatMap (renderLabel fetch)

/-! ## Where an offset lies -/

theorem u32_of_lt {n : Nat} (h : n < 2 ^ 32) : u32 n = n := Nat.mod_eq_of_lt h

theorem u32_lt (n : Nat) : u32 n < 2 ^ 32 := Nat.mod_lt _ (by decide)

theorem u32_le (n : Nat) : u32 n ≤ n := Nat.mod_le ..

theorem sub32_of_le {a b : Nat} (hb : b ≤ a) (ha : a < 2 ^ 32) : sub32 a b = a - b := by
  unfold sub32 u32
  omega

theorem scanLines_eq (bytes : Bytes) {i line start : Nat} (hline : line < 2 ^ 32)
    (hi : i + bytes.length < 2 ^ 32) : scanLines bytes i line start =
      (u32 (line + bytes.count newline),
        if newline ∈ bytes then i + Lines.lineStart newline bytes else start) := by
  induction bytes generalizing i line start with
  | nil => exact Prod.ext (u32_of_lt hline).symm rfl
  | cons byte bytes ih =>
    rw [List.length_cons] at hi
    rw [scanLines, Lines.lineStart]
    split
    · next heq =>
      subst heq
      have hmem : newline ∈ newline :: bytes := List.mem_cons_self ..
      have hrest := @ih (i + 1) (u32 (line + 1)) (u32 (i + 1)) (u32_lt _) (by omega)
      rw [hrest, u32_of_lt (by omega : i + 1 < 2 ^ 32), List.count_cons_self, if_pos hmem]
      refine Prod.ext ?_ ?_
      · unfold u32
        omega
      · split
        · omega
        · rfl
    · next hne =>
      have hrest := @ih (i + 1) line start hline (by omega)
      rw [hrest, List.count_cons_of_ne hne]
      refine Prod.ext rfl ?_
      by_cases hmem : newline ∈ bytes
      · rw [if_pos hmem, if_pos (.tail _ hmem), if_pos hmem]
        omega
      · rw [if_neg hmem, if_neg]
        exact fun h => (List.mem_cons.1 h).elim (fun heq => hne heq.symm) hmem

/-- The offset within the buffer. -/
def placeOf (bytes : Bytes) (offset : Nat) : Nat := min offset bytes.length

/-- Where the line of a place starts. -/
def startOf (bytes : Bytes) (place : Nat) : Nat := Lines.lineStart newline (bytes.take place)

theorem startOf_le (bytes : Bytes) (place : Nat) : startOf bytes place ≤ place :=
  Nat.le_trans (Lines.lineStart_le ..) (List.length_take_le ..)

theorem clampOffset_eq {bytes : Bytes} {offset : Nat} (h : offset < 2 ^ 32) :
    clampOffset bytes offset = placeOf bytes offset := by
  unfold clampOffset placeOf u32
  split <;> omega

/-- **What is located**: the newlines before the place, and how far behind the last one it is. -/
theorem locate_eq {bytes : Bytes} {offset : Nat} (h : offset < 2 ^ 32) :
    locate bytes offset =
      let place := placeOf bytes offset
      let start := startOf bytes place
      ⟨u32 (1 + (bytes.take place).count newline), u32 (place - start + 1),
        (bytes.drop start).take (sub32 (scanEnd bytes start (u32 bytes.length)) start)⟩ := by
  have hplace : placeOf bytes offset < 2 ^ 32 := Nat.lt_of_le_of_lt (Nat.min_le_left ..) h
  have hlength : (bytes.take (placeOf bytes offset)).length ≤ placeOf bytes offset :=
    List.length_take_le ..
  have hscan := @scanLines_eq (bytes.take (placeOf bytes offset)) 0 1 0 (by decide) (by omega)
  have hstart : (if newline ∈ bytes.take (placeOf bytes offset) then
      0 + Lines.lineStart newline (bytes.take (placeOf bytes offset)) else 0) =
        startOf bytes (placeOf bytes offset) := by
    split
    · exact Nat.zero_add _
    · next hmem => exact (Lines.lineStart_of_notMem hmem).symm
  rw [hstart] at hscan
  simp only [locate, clampOffset_eq h, hscan, sub32_of_le (startOf_le ..) hplace]

theorem findIdx?_newline (rest : Bytes) (start : Nat) :
    (match rest.findIdx? (· = newline) with
      | some i => start + i
      | none => start + rest.length) = start + (rest.takeWhile (· ≠ newline)).length := by
  induction rest generalizing start with
  | nil => rfl
  | cons byte rest ih =>
    rw [List.findIdx?_cons, List.takeWhile_cons]
    by_cases hbyte : byte = newline
    · simp [hbyte]
    · have hrest := ih (start + 1)
      have hno : decide (byte = newline) = false := decide_eq_false hbyte
      have hyes : decide (byte ≠ newline) = true := decide_eq_true hbyte
      simp only [hno, hyes, Bool.false_eq_true, if_false, if_true, List.length_cons]
      cases hfind : rest.findIdx? (· = newline) with
      | none =>
        rw [hfind] at hrest
        show start + (rest.length + 1) = _
        exact (by omega : start + (rest.length + 1) = start + 1 + rest.length).trans
          (hrest.trans (by omega))
      | some i =>
        rw [hfind] at hrest
        show start + (i + 1) = _
        exact (by omega : start + (i + 1) = start + 1 + i).trans (hrest.trans (by omega))

/-- The scan stops where the line does, if the line starts below the size. -/
theorem scanEnd_eq {bytes : Bytes} {start size : Nat} (hstart : start ≤ size)
    (hsize : size ≤ bytes.length) :
    scanEnd bytes start size = Lines.lineStop newline (bytes.take size) start := by
  have hlength : start + ((bytes.take size).drop start).length = size := by
    rw [List.length_drop, List.length_take_of_le hsize]
    exact Nat.add_sub_cancel' hstart
  have hfind := findIdx?_newline ((bytes.take size).drop start) start
  rw [hlength] at hfind
  exact hfind

/-- Where the rendered line stops. A line that starts beyond the size as a `u32` runs on up to the
size with one round of the `u32`s more. -/
def stopOf (bytes : Bytes) (start : Nat) : Nat :=
  if start ≤ u32 bytes.length then Lines.lineStop newline (bytes.take (u32 bytes.length)) start
  else 2 ^ 32 + u32 bytes.length

theorem stopOf_bounds {bytes : Bytes} {start : Nat} (h : start ≤ bytes.length)
    (hlt : start < 2 ^ 32) :
    start ≤ stopOf bytes start ∧ stopOf bytes start ≤ bytes.length ∧
      (start ≤ u32 bytes.length → stopOf bytes start ≤ u32 bytes.length) := by
  have hsize := u32_le bytes.length
  unfold stopOf
  split
  · next hstart =>
    have hline : ((bytes.take (u32 bytes.length)).drop start).length + start =
        u32 bytes.length := by
      rw [List.length_drop, List.length_take_of_le hsize]
      exact Nat.sub_add_cancel hstart
    have htake := List.Sublist.length_le (List.takeWhile_sublist (· ≠ newline)
      (l := (bytes.take (u32 bytes.length)).drop start))
    unfold Lines.lineStop
    omega
  · next hstart =>
    unfold u32 at hstart ⊢
    omega

/-- **The rendered line** goes from where the place's line starts to where it stops. -/
theorem locate_text {bytes : Bytes} {offset : Nat} (h : offset < 2 ^ 32) :
    let start := startOf bytes (placeOf bytes offset)
    (locate bytes offset).text = (bytes.drop start).take (stopOf bytes start - start) := by
  have hplace : placeOf bytes offset < 2 ^ 32 := Nat.lt_of_le_of_lt (Nat.min_le_left ..) h
  have hle : placeOf bytes offset ≤ bytes.length := Nat.min_le_right ..
  have hstart := startOf_le bytes (placeOf bytes offset)
  rw [locate_eq h]
  dsimp only
  refine congrArg (List.take · _) ?_
  obtain ⟨hfrom, hto, hbelow⟩ :=
    stopOf_bounds (Nat.le_trans hstart hle) (Nat.lt_of_le_of_lt hstart hplace)
  by_cases hsize : startOf bytes (placeOf bytes offset) ≤ u32 bytes.length
  · have hend := scanEnd_eq hsize (u32_le bytes.length)
    have hstop : stopOf bytes (startOf bytes (placeOf bytes offset)) = _ := if_pos hsize
    rw [hend, ← hstop]
    exact sub32_of_le hfrom (Nat.lt_of_le_of_lt (hbelow hsize) (u32_lt _))
  · have hnil :
        (bytes.take (u32 bytes.length)).drop (startOf bytes (placeOf bytes offset)) = [] := by
      refine List.drop_eq_nil_of_le ?_
      rw [List.length_take_of_le (u32_le _)]
      exact Nat.le_of_not_le hsize
    rw [scanEnd, hnil, stopOf, if_neg hsize]
    show sub32 (u32 bytes.length) _ = _
    have hlt := u32_lt bytes.length
    unfold sub32
    rw [u32_of_lt] <;> omega

theorem locate_text_length {bytes : Bytes} {offset : Nat} (h : offset < 2 ^ 32) :
    let start := startOf bytes (placeOf bytes offset)
    start + (locate bytes offset).text.length = stopOf bytes start := by
  have hplace : placeOf bytes offset < 2 ^ 32 := Nat.lt_of_le_of_lt (Nat.min_le_left ..) h
  have hle : placeOf bytes offset ≤ bytes.length := Nat.min_le_right ..
  have hstart := startOf_le bytes (placeOf bytes offset)
  obtain ⟨hfrom, hto, -⟩ :=
    stopOf_bounds (Nat.le_trans hstart hle) (Nat.lt_of_le_of_lt hstart hplace)
  dsimp only
  rw [locate_text h, List.length_take, List.length_drop]
  omega

/-! ## Carets -/

/-- The bytes of the span that lie on the rendered line. -/
def covered (bytes : Bytes) (span : Span) : Nat :=
  let place := placeOf bytes span.offset
  let start := startOf bytes place
  (Finset.Ico place (place + span.length) ∩
    Finset.Ico start (start + (locate bytes span.offset).text.length)).card

theorem covered_eq {bytes : Bytes} {span : Span} (h : span.offset < 2 ^ 32) :
    let place := placeOf bytes span.offset
    covered bytes span =
      min (place + span.length) (stopOf bytes (startOf bytes place)) - place := by
  have hstart := startOf_le bytes (placeOf bytes span.offset)
  dsimp only
  rw [covered, locate_text_length h, Finset.Ico_inter_Ico, Nat.card_Ico, max_eq_left hstart]

/-- The run as it is computed: both of its bounds wrap around. -/
theorem carets_eq {bytes : Bytes} {span : Span} (h : span.offset < 2 ^ 32) :
    let place := placeOf bytes span.offset
    carets bytes span = max 1
      (min (u32 (place + span.length)) (u32 (stopOf bytes (startOf bytes place))) - place) := by
  have hplace : placeOf bytes span.offset < 2 ^ 32 := Nat.lt_of_le_of_lt (Nat.min_le_left ..) h
  have hle : placeOf bytes span.offset ≤ bytes.length := Nat.min_le_right ..
  have hstart := startOf_le bytes (placeOf bytes span.offset)
  obtain ⟨hfrom, -, -⟩ :=
    stopOf_bounds (Nat.le_trans hstart hle) (Nat.lt_of_le_of_lt hstart hplace)
  have hcol : sub32 (locate bytes span.offset).col 1 =
      placeOf bytes span.offset - startOf bytes (placeOf bytes span.offset) := by
    rw [locate_eq h]
    dsimp only
    unfold sub32 u32
    omega
  have htext : u32 (startOf bytes (placeOf bytes span.offset) +
      u32 (locate bytes span.offset).text.length) =
        u32 (stopOf bytes (startOf bytes (placeOf bytes span.offset))) := by
    rw [← locate_text_length h]
    unfold u32
    omega
  have hback : sub32 (placeOf bytes span.offset) (placeOf bytes span.offset -
      startOf bytes (placeOf bytes span.offset)) = startOf bytes (placeOf bytes span.offset) := by
    rw [sub32_of_le (Nat.sub_le ..) hplace]
    exact Nat.sub_sub_self hstart
  simp only [carets, clampOffset_eq h, hcol, hback, htext]
  split <;> split <;> split <;> omega

/-- When the carets stand right: under the bytes of the span on the line, or one if there is none,
and never beyond the line if there are more. -/
structure Underlined (bytes : Bytes) (span : Span) : Prop where
  count : carets bytes span = max 1 (covered bytes span)
  column : (locate bytes span.offset).col - 1 =
    placeOf bytes span.offset - startOf bytes (placeOf bytes span.offset)
  inside : 1 < carets bytes span → placeOf bytes span.offset + carets bytes span ≤
    startOf bytes (placeOf bytes span.offset) + (locate bytes span.offset).text.length

/-- Nothing wraps around, or one caret is right anyway. -/
structure CaretsFit (bytes : Bytes) (span : Span) : Prop where
  count : (placeOf bytes span.offset + span.length < 2 ^ 32 ∧
      startOf bytes (placeOf bytes span.offset) ≤ u32 bytes.length) ∨
    min (placeOf bytes span.offset + span.length)
      (stopOf bytes (startOf bytes (placeOf bytes span.offset))) ≤ placeOf bytes span.offset + 1
  column : ¬ (placeOf bytes span.offset = 2 ^ 32 - 1 ∧
    newline ∉ bytes.take (placeOf bytes span.offset))

theorem underlined_iff {bytes : Bytes} {span : Span} (h : span.offset < 2 ^ 32)
    (hlength : span.length < 2 ^ 32) : Underlined bytes span ↔ CaretsFit bytes span := by
  have hplace : placeOf bytes span.offset < 2 ^ 32 := Nat.lt_of_le_of_lt (Nat.min_le_left ..) h
  have hle : placeOf bytes span.offset ≤ bytes.length := Nat.min_le_right ..
  have hstart := startOf_le bytes (placeOf bytes span.offset)
  obtain ⟨hfrom, -, hbelow⟩ :=
    stopOf_bounds (Nat.le_trans hstart hle) (Nat.lt_of_le_of_lt hstart hplace)
  have hbeyond : ¬ startOf bytes (placeOf bytes span.offset) ≤ u32 bytes.length →
      stopOf bytes (startOf bytes (placeOf bytes span.offset)) = 2 ^ 32 + u32 bytes.length :=
    fun hsize => if_neg hsize
  have hsize := u32_lt bytes.length
  have hcol : (locate bytes span.offset).col - 1 =
      placeOf bytes span.offset - startOf bytes (placeOf bytes span.offset) ↔
        ¬ (placeOf bytes span.offset = 2 ^ 32 - 1 ∧
          startOf bytes (placeOf bytes span.offset) = 0) := by
    rw [locate_eq h]
    dsimp only
    unfold u32
    omega
  have hfirst : startOf bytes (placeOf bytes span.offset) = 0 ↔
      newline ∉ bytes.take (placeOf bytes span.offset) :=
    ⟨fun hzero hmem => Nat.ne_of_gt (Lines.lineStart_pos hmem) hzero, Lines.lineStart_of_notMem⟩
  rw [hfirst] at hcol
  have hcount := @carets_eq bytes span h
  have hcovered := @covered_eq bytes span h
  have htext := @locate_text_length bytes span.offset h
  dsimp only at hcount hcovered htext
  -- The bounds wrap around only where they come out below the place.
  have hbounds : max 1 (min (u32 (placeOf bytes span.offset + span.length))
      (u32 (stopOf bytes (startOf bytes (placeOf bytes span.offset)))) -
        placeOf bytes span.offset) =
        max 1 (min (placeOf bytes span.offset + span.length)
          (stopOf bytes (startOf bytes (placeOf bytes span.offset))) - placeOf bytes span.offset) ↔
      (placeOf bytes span.offset + span.length < 2 ^ 32 ∧
        startOf bytes (placeOf bytes span.offset) ≤ u32 bytes.length) ∨
      min (placeOf bytes span.offset + span.length)
        (stopOf bytes (startOf bytes (placeOf bytes span.offset))) ≤
          placeOf bytes span.offset + 1 := by
    generalize placeOf bytes span.offset = place at *
    generalize startOf bytes place = start at *
    generalize stopOf bytes start = stop at *
    generalize u32 bytes.length = size at *
    unfold u32
    by_cases hstop : start ≤ size
    · have hlt := Nat.lt_of_le_of_lt (hbelow hstop) hsize
      rw [Nat.mod_eq_of_lt hlt]
      omega
    · have heq := hbeyond hstop
      omega
  rw [← hcount, ← hcovered] at hbounds
  refine ⟨fun hu => ⟨hbounds.1 hu.count, hcol.1 hu.column⟩, fun hf =>
    ⟨hbounds.2 hf.count, hcol.2 hf.column, fun hmany => ?_⟩⟩
  have hmore := hbounds.2 hf.count
  rw [htext]
  omega

/-- The width of a number is that of its digits. -/
theorem decimalWidth_eq (value : Nat) : decimalWidth value = (decimal value).length := by
  induction value using Nat.strong_induction_on with
  | h value ih =>
    rw [decimalWidth, decimal, Nat.toDigits_eq_if (by decide)]
    split
    · next hwide =>
      rw [if_neg (Nat.not_lt.2 hwide), List.length_append, ih (value / 10) (by omega)]
      rfl
    · next hdigit =>
      rw [if_pos (Nat.lt_of_not_le hdigit)]
      rfl

/-- The carets stand behind as many bytes as the text of the line does. -/
theorem margin_length (line : Nat) : (writeGutter (decimalWidth line) ++ printed " ").length =
    (number line ++ printed " | ").length := by
  rw [List.length_append, List.length_append, writeGutter, List.length_append,
    List.length_replicate, decimalWidth_eq, number, utf8_decimal_length]
  rfl

/-- **Carets underline the span**: for a source that is not empty, the line is followed by one with
a run of carets, which stands right exactly where nothing wraps around, or one caret is right. -/
theorem render_underlines {diag : Diagnostic} {span : Span} {fetch : SourceFetch}
    (hspan : diag.primarySpan = some span) (hsource : (fetchText fetch span.file).bytes ≠ [])
    (hoffset : span.offset < 2 ^ 32) (hlength : span.length < 2 ^ 32) (labels : List Label)
    (color : Option (Severity → String → Bytes)) :
    let bytes := (fetchText fetch span.file).bytes
    let info := locate bytes span.offset
    (∃ before margin,
      render diag labels color fetch = before ++
        (number info.line ++ printed " | " ++ info.text ++ printed "\n") ++
        (margin ++ List.replicate (info.col - 1) ' '.toUInt8 ++
          List.replicate (carets bytes span) '^'.toUInt8 ++ printed "\n") ++
        labels.flatMap (renderLabel fetch) ∧
      margin.length = (number info.line ++ printed " | ").length) ∧
    (Underlined bytes span ↔ CaretsFit bytes span) := by
  dsimp only
  refine ⟨⟨renderHeader diag color ++ renderPlace (fetchText fetch span.file)
    (locate (fetchText fetch span.file).bytes span.offset), _, ?_, margin_length _⟩,
    underlined_iff hoffset hlength⟩
  simp only [render, hspan, if_neg hsource, renderSpan, textLine, caretLine, List.append_assoc]

/-- A source of two lines, under one name. -/
def twoLines : SourceText := ⟨printed "main.al", printed "let x = foo(1, 2);\nlet y = 2;\n"⟩

theorem call_underlined : Underlined twoLines.bytes ⟨3, 8, 3⟩ := by
  refine (@render_underlines ⟨.error, 1, "bad call", some ⟨3, 8, 3⟩⟩ _ (some fun _ => twoLines) rfl
    (by decide) (by decide) (by decide) [] none).2.2 ⟨.inl (by decide), by decide⟩

/-- The longest span from the same place on: ten bytes of it lie on the line, under one caret. -/
theorem longSpan_underlined : carets twoLines.bytes ⟨3, 8, 4294967295⟩ = 1 ∧
    covered twoLines.bytes ⟨3, 8, 4294967295⟩ = 10 ∧
    ¬ Underlined twoLines.bytes ⟨3, 8, 4294967295⟩ := by
  have hcarets : carets twoLines.bytes ⟨3, 8, 4294967295⟩ = 1 := by decide
  have hcovered : covered twoLines.bytes ⟨3, 8, 4294967295⟩ = 10 := by
    rw [covered_eq (by decide)]
    decide
  refine ⟨hcarets, hcovered, fun h => ?_⟩
  have hcount := h.count
  rw [hcarets, hcovered] at hcount
  exact absurd hcount (by decide)

end Alcy.Diag
