import Alcy.Parser.TypeText

/-! # Patterns as text

Patterns as they are spelled, and what `parse_pattern` makes of them. A lone segment that starts in
lower case binds, so a path that names a variant or a struct must not look like one. -/
namespace Alcy.Parser
open Alcy.Ast Alcy.Diag
open Alcy.Lexer (Token TokenKind)
open PM

mutual

/-- A pattern as it is spelled. A variant without elements is its path; a tuple of one element has
its comma. -/
inductive PatternText where
  | wildcard
  | name (name : String)
  | mutName (name : String)
  | literal (negative : Bool) (kind : LiteralKind) (spelling : String)
  | tuple (elements : List PatternText) (trailing : Bool)
  | variant (path : PathText) (elements : List PatternText) (trailing : Bool)
  | struct (path : PathText) (fields : List FieldPatternText) (trailing : Bool)
  | ref (isMut : Bool) (inner : PatternText)
  | or (first : PatternText) (others : List PatternText)
  | paren (inner : PatternText)

inductive FieldPatternText where
  | short (name : String)
  | long (name : String) (pattern : PatternText)

end

def identText (name : String) : Lexeme := ⟨.ident, name⟩

def literalToken (kind : LiteralKind) (spelling : String) : TokenKind :=
  match kind with
  | .integer => .integer
  | .float => .float
  | .string => .string
  | .char => .char
  | .bool => if spelling = "true" then .true else .false

def literalText (kind : LiteralKind) (spelling : String) : Lexeme :=
  ⟨literalToken kind spelling, spelling⟩

def plainLiteral (kind : LiteralKind) (spelling : String) : Literal := ⟨kind, default, spelling⟩

mutual

def PatternText.lexemes : PatternText → List Lexeme
  | .wildcard => [symbol .underscore]
  | .name name => [segment name]
  | .mutName name => [symbol .mut, identText name]
  | .literal negative kind spelling =>
    (if negative then [symbol .minus] else []) ++ [literalText kind spelling]
  | .tuple elements trailing =>
    symbol .lParen :: (PatternText.listLexemes (trailing || elements.length == 1) elements ++
      [symbol .rParen])
  | .variant path elements trailing =>
    path.lexemes ++ if elements.isEmpty then []
      else symbol .lParen :: (PatternText.listLexemes trailing elements ++ [symbol .rParen])
  | .struct path fields trailing =>
    path.lexemes ++ symbol .lBrace :: (FieldPatternText.listLexemes trailing fields ++
      [symbol .rBrace])
  | .ref isMut inner => symbol .amp :: (mutText isMut ++ inner.lexemes)
  | .or first others => first.lexemes ++ PatternText.alternatives others
  | .paren inner => symbol .lParen :: (inner.lexemes ++ [symbol .rParen])

def PatternText.listLexemes (trailing : Bool) : List PatternText → List Lexeme
  | [] => []
  | pattern :: patterns =>
    pattern.lexemes ++ (if patterns.isEmpty && !trailing then [] else [symbol .comma]) ++
      PatternText.listLexemes trailing patterns

def PatternText.alternatives : List PatternText → List Lexeme
  | [] => []
  | pattern :: patterns =>
    symbol .pipe :: (pattern.lexemes ++ PatternText.alternatives patterns)

def FieldPatternText.lexemes : FieldPatternText → List Lexeme
  | .short name => [identText name]
  | .long name pattern => identText name :: symbol .colon :: pattern.lexemes

def FieldPatternText.listLexemes (trailing : Bool) : List FieldPatternText → List Lexeme
  | [] => []
  | field :: fields =>
    field.lexemes ++ (if fields.isEmpty && !trailing then [] else [symbol .comma]) ++
      FieldPatternText.listLexemes trailing fields

end

mutual

def PatternText.tree : PatternText → Pattern
  | .wildcard => .wildcard default
  | .name name => .ident default (plainIdent name)
  | .mutName name => .mutIdent default (plainIdent name)
  | .literal _ kind spelling => .literal default (plainLiteral kind spelling)
  | .tuple elements _ => .tuple default none (PatternText.trees elements)
  | .variant path elements _ => .tuple default (some path.tree) (PatternText.trees elements)
  | .struct path fields _ => .struct default path.tree (FieldPatternText.trees fields)
  | .ref isMut inner => .ref default isMut inner.tree
  | .or first others => .or default (first.tree :: PatternText.trees others)
  | .paren inner => inner.tree

def PatternText.trees : List PatternText → List Pattern
  | [] => []
  | pattern :: patterns => pattern.tree :: PatternText.trees patterns

def FieldPatternText.tree : FieldPatternText → Ident × Pattern
  | .short name => (plainIdent name, .ident default (plainIdent name))
  | .long name pattern => (plainIdent name, pattern.tree)

def FieldPatternText.trees : List FieldPatternText → List (Ident × Pattern)
  | [] => []
  | field :: fields => field.tree :: FieldPatternText.trees fields

end

/-- The parser reads a lone segment like this as a binding. -/
def bindingName (name : String) : Bool :=
  match name.toList with
  | c :: _ => c == '_' || ('a' ≤ c && c ≤ 'z')
  | [] => false

def PathText.binds (path : PathText) : Bool := path.rest.isEmpty && bindingName path.first

def PatternText.isOr : PatternText → Bool
  | .or _ _ => true
  | _ => false

def PatternText.startsMut : PatternText → Bool
  | .mutName _ => true
  | _ => false

def numeric : LiteralKind → Bool
  | .integer | .float => true
  | _ => false

mutual

/-- Paths and bindings look like what they are, and alternatives stand where the parser wants
them. -/
def PatternText.legible : PatternText → Bool
  | .wildcard | .mutName _ => true
  | .name name => bindingName name
  | .literal negative kind _ => !negative || numeric kind
  | .tuple elements _ => !elements.isEmpty && PatternText.listLegible elements
  | .variant path elements _ => !path.binds && PatternText.listLegible elements
  | .struct path fields _ => !path.binds && FieldPatternText.listLegible fields
  | .ref isMut inner => (isMut || !inner.startsMut) && !inner.isOr && inner.legible
  | .or first others =>
    !first.isOr && first.legible && !others.isEmpty && PatternText.primaries others
  | .paren inner => inner.legible

def PatternText.listLegible : List PatternText → Bool
  | [] => true
  | pattern :: patterns => pattern.legible && PatternText.listLegible patterns

def PatternText.primaries : List PatternText → Bool
  | [] => true
  | pattern :: patterns => !pattern.isOr && pattern.legible && PatternText.primaries patterns

def FieldPatternText.legible : FieldPatternText → Bool
  | .short _ => true
  | .long _ pattern => pattern.legible

def FieldPatternText.listLegible : List FieldPatternText → Bool
  | [] => true
  | field :: fields => field.legible && FieldPatternText.listLegible fields

end

/-- A kind that a pattern without alternatives does not run into. -/
def endsPrimary (k : TokenKind) : Bool := k != .colonColon && k != .lParen && k != .lBrace

/-- A kind that a pattern does not run into. -/
def endsPattern (k : TokenKind) : Bool := endsPrimary k && k != .pipe

/-! ## Lists of patterns -/

theorem PatternText.listLexemes_eq (trailing : Bool) (patterns : List PatternText) :
    PatternText.listLexemes trailing patterns = commas trailing (patterns.map PatternText.lexemes) := by
  induction patterns with
  | nil => rfl
  | cons pattern patterns ih =>
    rw [PatternText.listLexemes, ih, List.map_cons, commas, List.isEmpty_map]

theorem FieldPatternText.listLexemes_eq (trailing : Bool) (fields : List FieldPatternText) :
    FieldPatternText.listLexemes trailing fields =
      commas trailing (fields.map FieldPatternText.lexemes) := by
  induction fields with
  | nil => rfl
  | cons field fields ih =>
    rw [FieldPatternText.listLexemes, ih, List.map_cons, commas, List.isEmpty_map]

theorem PatternText.trees_eq (patterns : List PatternText) :
    PatternText.trees patterns = patterns.map PatternText.tree := by
  induction patterns with
  | nil => rfl
  | cons pattern patterns ih => rw [PatternText.trees, ih, List.map_cons]

theorem FieldPatternText.trees_eq (fields : List FieldPatternText) :
    FieldPatternText.trees fields = fields.map FieldPatternText.tree := by
  induction fields with
  | nil => rfl
  | cons field fields ih => rw [FieldPatternText.trees, ih, List.map_cons]

theorem PatternText.listLegible_all {patterns : List PatternText}
    (h : PatternText.listLegible patterns = true) : ∀ p ∈ patterns, p.legible = true := by
  induction patterns with
  | nil => exact fun p hp => absurd hp List.not_mem_nil
  | cons pattern patterns ih =>
    rw [PatternText.listLegible, Bool.and_eq_true] at h
    intro p hp
    rcases List.mem_cons.1 hp with rfl | hp
    · exact h.1
    · exact ih h.2 p hp

theorem FieldPatternText.listLegible_all {fields : List FieldPatternText}
    (h : FieldPatternText.listLegible fields = true) : ∀ f ∈ fields, f.legible = true := by
  induction fields with
  | nil => exact fun f hf => absurd hf List.not_mem_nil
  | cons field fields ih =>
    rw [FieldPatternText.listLegible, Bool.and_eq_true] at h
    intro f hf
    rcases List.mem_cons.1 hf with rfl | hf
    · exact h.1
    · exact ih h.2 f hf

/-! ## How a pattern begins -/

def startsPattern (k : TokenKind) : Bool :=
  (Input.literalKind k).isSome || isPathSegment k || k == .underscore || k == .mut || k == .minus ||
    k == .lParen || k == .amp

theorem startsPattern_ne {l : Lexeme} (h : startsPattern l.kind = true) {k : TokenKind}
    (hk : startsPattern k = false) : l.kind ≠ k := by
  intro heq
  rw [heq, hk] at h
  exact Bool.false_ne_true h

theorem startsPattern_segment (name : String) : startsPattern (segment name).kind = true := by
  rw [startsPattern, segment, isPathSegment_segmentKind, Bool.or_true]
  rfl

theorem literalKind_token (kind : LiteralKind) (spelling : String) :
    Input.literalKind (literalToken kind spelling) = some kind := by
  cases kind with
  | bool =>
    rw [literalToken]
    split <;> rfl
  | _ => rfl

theorem startsPattern_literal (kind : LiteralKind) (spelling : String) :
    startsPattern (literalText kind spelling).kind = true := by
  rw [startsPattern, literalText, literalKind_token]
  rfl

theorem PatternText.begin : ∀ pattern : PatternText, ∃ l ls, pattern.lexemes = l :: ls ∧
    startsPattern l.kind = true ∧ (pattern.startsMut = false → pattern.isOr = false → l.kind ≠ .mut)
  | .wildcard => ⟨_, _, rfl, rfl, fun _ _ => TokenKind.noConfusion⟩
  | .name text => ⟨_, _, rfl, startsPattern_segment text, fun _ _ => segmentKind_ne text rfl⟩
  | .mutName _ => ⟨_, _, rfl, rfl, fun h => absurd h Bool.noConfusion⟩
  | .literal true _ _ => ⟨_, _, rfl, rfl, fun _ _ => TokenKind.noConfusion⟩
  | .literal false kind spelling => by
    refine ⟨_, _, rfl, startsPattern_literal kind spelling, fun _ _ h => ?_⟩
    have hkind := literalKind_token kind spelling
    rw [show literalToken kind spelling = .mut from h] at hkind
    exact absurd hkind (Option.some_ne_none kind).symm
  | .tuple _ _ => ⟨_, _, rfl, rfl, fun _ _ => TokenKind.noConfusion⟩
  | .variant path _ _ =>
    ⟨_, _, rfl, startsPattern_segment path.first, fun _ _ => segmentKind_ne path.first rfl⟩
  | .struct path _ _ =>
    ⟨_, _, rfl, startsPattern_segment path.first, fun _ _ => segmentKind_ne path.first rfl⟩
  | .ref _ _ => ⟨_, _, rfl, rfl, fun _ _ => TokenKind.noConfusion⟩
  | .or first others => by
    obtain ⟨l, ls, hl, hstart, -⟩ := first.begin
    refine ⟨l, ls ++ PatternText.alternatives others, ?_, hstart, fun _ h => absurd h Bool.noConfusion⟩
    rw [PatternText.lexemes, hl, List.cons_append]
  | .paren _ => ⟨_, _, rfl, rfl, fun _ _ => TokenKind.noConfusion⟩

theorem PatternText.begins (pattern : PatternText) {close : TokenKind}
    (hclose : startsPattern close = false) : Begins close pattern.lexemes := by
  obtain ⟨l, ls, hl, hstart, -⟩ := pattern.begin
  exact ⟨l, ls, hl, startsPattern_ne hstart hclose, startsPattern_ne hstart rfl⟩

/-! ## Bindings -/

theorem bindingSegment_plain (path : Path) :
    (Input.bindingSegment path).map Ident.plain = Input.bindingSegment path.plain := by
  obtain ⟨segments, span⟩ := path
  cases segments with
  | nil => rfl
  | cons segment rest =>
    cases rest with
    | cons => rfl
    | nil =>
      simp only [Input.bindingSegment, Path.plain, List.map_cons, List.map_nil, Ident.plain]
      split
      · split <;> rfl
      · rfl

theorem bindingSegment_tree (path : PathText) : Input.bindingSegment path.tree =
    if path.binds then some (plainIdent path.first) else none := by
  obtain ⟨first, rest⟩ := path
  cases rest with
  | nil =>
    rw [PathText.binds, List.isEmpty_nil, Bool.true_and, bindingName]
    simp only [PathText.tree, List.map_cons, List.map_nil, Input.bindingSegment, plainIdent]
    cases first.toList <;> rfl
  | cons => rfl

/-! ## Reading patterns -/

variable {inp : Input} {m : Mode} {M : Nat} {back : Input.PatternRec} {k : TokenKind}

/-- With fewer than `M` lexemes ahead, the two ways back into patterns take any legible pattern. -/
structure PatternsRead (inp : Input) (m : Mode) (M : Nat) (back : Input.PatternRec) : Prop where
  pattern : ∀ (p : PatternText) (k : TokenKind), p.legible = true → endsPattern k = true →
    Takes inp m M back.pattern p.lexemes k fun result => result.plain = p.tree
  primary : ∀ (p : PatternText) (k : TokenKind), p.legible = true → p.isOr = false →
    endsPrimary k = true → Takes inp m M back.primary p.lexemes k fun result => result.plain = p.tree

theorem PatternsRead.after {ls : List Lexeme} {s : PState} (h : PatternsRead inp m M back)
    (hs : At inp m ls s) (hM : ls.length ≤ M) : PatternsRead inp m ls.length (back.after s.pos) :=
  ⟨fun p k hp hk => (h.pattern p k hp hk).after hs hM,
    fun p k hp hor hk => (h.primary p k hp hor hk).after hs hM⟩

/-- A list of patterns in brackets. -/
theorem PatternsRead.each (h : PatternsRead inp m M back) (close : TokenKind)
    (hclose : endsPattern close = true) (trailing : Bool) :
    ∀ {patterns : List PatternText}, PatternText.listLegible patterns = true →
      Followed close trailing
        (TakesEach inp m M back.pattern PatternText.lexemes Pattern.plain PatternText.tree) patterns
  | [], _ => trivial
  | pattern :: patterns, hlegible => by
    rw [PatternText.listLegible, Bool.and_eq_true] at hlegible
    refine ⟨h.pattern pattern _ hlegible.1 ?_, h.each close hclose trailing hlegible.2⟩
    split
    · exact hclose
    · rfl

theorem parseIdent_takes (name what : String) :
    Takes inp m M (inp.parseIdent what) [identText name] k fun result =>
      result.plain = plainIdent name := by
  intro ls s hs _ _
  refine .peek hs fun t ht => ?_
  refine .yes (congrArg Lexeme.kind ht) (.advance hs TokenKind.noConfusion fun s1 hs1 => ?_)
  exact .pure ⟨tokenIdent_plain ht rfl, hs1⟩

theorem parseFieldPattern_takes (h : PatternsRead inp m M back) {field : FieldPatternText}
    (hlegible : field.legible = true) (hk : endsPattern k = true) (hcolon : k ≠ .colon) :
    Takes inp m M (inp.parseFieldPattern back) field.lexemes k fun result =>
      (result.1.plain, result.2.plain) = field.tree := by
  intro ls s hs hM hnext
  cases field with
  | short name =>
    refine .bind (parseIdent_takes name _ ls s hs hM hnext) fun result s1 h1 => ?_
    refine .decline h1.2 TokenKind.noConfusion (hnext ▸ hcolon) (.no Bool.false_ne_true ?_)
    refine .pure ⟨?_, h1.2⟩
    have hplain : (Pattern.ident result.span result).plain = .ident default (plainIdent name) := by
      rw [Pattern.plain, h1.1]
    exact Prod.ext h1.1 hplain
  | long name pattern =>
    refine .bind (parseIdent_takes name _ _ s hs hM rfl) fun result s1 h1 => ?_
    refine .accept h1.2 TokenKind.noConfusion fun s2 (hs2 : At inp m (pattern.lexemes ++ ls) s2) =>
      .yes rfl ?_
    have hlt : (pattern.lexemes ++ ls).length < M := by
      refine Nat.lt_trans ?_ hM
      simp only [FieldPatternText.lexemes, List.cons_append, List.length_cons]
      omega
    refine .bind (h.pattern pattern k hlegible hk ls s2 hs2 hlt hnext) fun result' s3 h3 => ?_
    exact .pure ⟨Prod.ext h1.1 h3.1, h3.2⟩

theorem PatternsRead.fields (h : PatternsRead inp m M back) (trailing : Bool) :
    ∀ {fields : List FieldPatternText}, FieldPatternText.listLegible fields = true →
      Followed .rBrace trailing
        (TakesEach inp m M (inp.parseFieldPattern back) FieldPatternText.lexemes
          (fun result => (result.1.plain, result.2.plain)) FieldPatternText.tree) fields
  | [], _ => trivial
  | field :: fields, hlegible => by
    rw [FieldPatternText.listLegible, Bool.and_eq_true] at hlegible
    refine ⟨?_, h.fields trailing hlegible.2⟩
    split
    · exact parseFieldPattern_takes h hlegible.1 rfl TokenKind.noConfusion
    · exact parseFieldPattern_takes h hlegible.1 rfl TokenKind.noConfusion

/-- `parse_pattern` inside brackets: a parenthesised pattern or a plain tuple. -/
theorem parseParenPattern_paren (h : PatternsRead inp m M back) {inner : PatternText}
    {ls : List Lexeme} {s : PState} {mark : Nat} (hlegible : inner.legible = true)
    (hs : At inp m (inner.lexemes ++ symbol .rParen :: ls) s)
    (hM : (inner.lexemes ++ symbol .rParen :: ls).length < M) :
    Gives (inp.parseParenPattern mark back) s fun result s' =>
      result.plain = inner.tree ∧ At inp m ls s' := by
  refine .bind (h.pattern inner .rParen hlegible rfl _ s hs hM rfl) fun result s1 h1 => ?_
  refine .decline h1.2 TokenKind.noConfusion TokenKind.noConfusion (.no Bool.false_ne_true ?_)
  exact .expect h1.2 TokenKind.noConfusion fun s2 hs2 => .pure ⟨h1.1, hs2⟩

theorem parseParenPattern_tuple (h : PatternsRead inp m M back) {elements : List PatternText}
    {trailing : Bool} {ls : List Lexeme} {s : PState} {mark : Nat} (hmark : mark < inp.count)
    (hlegible : (PatternText.tuple elements trailing).legible = true)
    (hs : At inp m (PatternText.listLexemes (trailing || elements.length == 1) elements ++
      symbol .rParen :: ls) s)
    (hM : (PatternText.listLexemes (trailing || elements.length == 1) elements ++
      symbol .rParen :: ls).length < M) :
    Gives (inp.parseParenPattern mark back) s fun result s' =>
      result.plain = (PatternText.tuple elements trailing).tree ∧ At inp m ls s' := by
  rw [PatternText.legible, Bool.and_eq_true] at hlegible
  cases elements with
  | nil => exact absurd hlegible.1 Bool.false_ne_true
  | cons first elements =>
    have hlist := hlegible.2
    rw [PatternText.listLegible, Bool.and_eq_true] at hlist
    have hcomma : (elements.isEmpty && !(trailing || (first :: elements).length == 1)) = false := by
      cases elements with
      | nil => rw [List.length_singleton, beq_self_eq_true, Bool.or_true]; rfl
      | cons => rfl
    generalize (trailing || (first :: elements).length == 1) = tr at hs hM hcomma
    rw [PatternText.listLexemes, hcomma, if_neg Bool.false_ne_true, PatternText.listLexemes_eq,
      List.append_assoc, List.append_assoc] at hs hM
    refine .bind (h.pattern first .comma hlist.1 rfl _ s hs hM rfl) fun result s1 h1 => ?_
    refine .accept h1.2 TokenKind.noConfusion fun s2 (hs2 : At inp m (commas tr
      (elements.map PatternText.lexemes) ++ symbol .rParen :: ls) s2) => .yes rfl ?_
    have hlt : (commas tr (elements.map PatternText.lexemes) ++ symbol .rParen :: ls).length < M := by
      simp only [List.length_append] at hM ⊢
      omega
    have hrest := Takes.commaRest TokenKind.noConfusion TokenKind.noConfusion
      (fun pattern _ => pattern.begins rfl) (h.each .rParen rfl tr hlist.2)
      [result] _ s2 hs2 hlt rfl
    refine .bind hrest fun results s3 h3 => ?_
    refine .expect h3.2 TokenKind.noConfusion fun s4 hs4 => .spanned hmark fun span => ⟨?_, hs4⟩
    rw [Pattern.plain, Pattern.plainAll_eq, h3.1, PatternText.tree, PatternText.trees_eq,
      List.map_singleton, h1.1]
    rfl

/-- A path that is not a binding, and what is in its brackets. -/
theorem parseNamedPattern_variant (h : PatternsRead inp m M back) {path : PathText}
    {elements : List PatternText} {trailing : Bool} {ls : List Lexeme} {s : PState} {mark : Nat}
    (hmark : mark < inp.count) (hlegible : (PatternText.variant path elements trailing).legible = true)
    (hk : endsPrimary (nextKind ls) = true)
    (hs : At inp m ((PatternText.variant path elements trailing).lexemes ++ ls) s)
    (hM : ((PatternText.variant path elements trailing).lexemes ++ ls).length ≤ M) :
    Gives (inp.parseNamedPattern mark back) s fun result s' =>
      result.plain = (PatternText.variant path elements trailing).tree ∧ At inp m ls s' := by
  rw [PatternText.legible, Bool.and_eq_true, Bool.not_eq_true'] at hlegible
  rw [endsPrimary, Bool.and_eq_true, Bool.and_eq_true, bne_iff_ne, bne_iff_ne, bne_iff_ne] at hk
  rw [PatternText.lexemes, List.append_assoc] at hs hM
  have hcolon : nextKind ((if elements.isEmpty then [] else symbol .lParen ::
      (PatternText.listLexemes trailing elements ++ [symbol .rParen])) ++ ls) ≠ .colonColon := by
    split
    · exact hk.1.1
    · exact TokenKind.noConfusion
  refine .bind (parsePath_gives hs hcolon) fun result s1 h1 => ?_
  have hbind : Input.bindingSegment result = none := by
    rw [← Option.map_eq_none_iff (f := Ident.plain), bindingSegment_plain, h1.1,
      bindingSegment_tree, hlegible.1, if_neg Bool.false_ne_true]
  rw [hbind]
  cases elements with
  | nil =>
    refine .decline h1.2 TokenKind.noConfusion hk.1.2 (.no Bool.false_ne_true ?_)
    refine .decline h1.2 TokenKind.noConfusion hk.2 (.no Bool.false_ne_true ?_)
    refine .spanned hmark fun span => ⟨?_, h1.2⟩
    rw [Pattern.plain, Option.map_some, h1.1]
    rfl
  | cons first elements =>
    have hs1 : At inp m (symbol .lParen :: (commas trailing ((first :: elements).map
        PatternText.lexemes) ++ symbol .rParen :: ls)) s1 := by
      have hs1 := h1.2
      rwa [List.isEmpty_cons, if_neg Bool.false_ne_true, PatternText.listLexemes_eq, List.cons_append,
        List.append_assoc, List.singleton_append] at hs1
    refine .accept hs1 TokenKind.noConfusion fun s2 hs2 => .yes rfl ?_
    have hlt : (commas trailing ((first :: elements).map PatternText.lexemes) ++
        symbol .rParen :: ls).length < M := by
      refine Nat.lt_of_lt_of_le ?_ hM
      rw [List.isEmpty_cons, if_neg Bool.false_ne_true, PatternText.listLexemes_eq]
      simp only [List.length_append, List.length_cons, List.length_nil]
      omega
    have hlist := Takes.commaList TokenKind.noConfusion TokenKind.noConfusion
      (fun pattern _ => pattern.begins rfl)
      (h.each .rParen rfl trailing hlegible.2) _ s2 hs2 hlt rfl
    refine .bind hlist fun results s3 h3 => ?_
    refine .expect h3.2 TokenKind.noConfusion fun s4 hs4 => .spanned hmark fun span => ⟨?_, hs4⟩
    rw [Pattern.plain, Pattern.plainAll_eq, h3.1, Option.map_some, h1.1, PatternText.tree,
      PatternText.trees_eq]

theorem parseNamedPattern_struct (h : PatternsRead inp m M back) {path : PathText}
    {fields : List FieldPatternText} {trailing : Bool} {ls : List Lexeme} {s : PState} {mark : Nat}
    (hmark : mark < inp.count) (hlegible : (PatternText.struct path fields trailing).legible = true)
    (hs : At inp m ((PatternText.struct path fields trailing).lexemes ++ ls) s)
    (hM : ((PatternText.struct path fields trailing).lexemes ++ ls).length ≤ M) :
    Gives (inp.parseNamedPattern mark back) s fun result s' =>
      result.plain = (PatternText.struct path fields trailing).tree ∧ At inp m ls s' := by
  rw [PatternText.legible, Bool.and_eq_true, Bool.not_eq_true'] at hlegible
  rw [PatternText.lexemes, FieldPatternText.listLexemes_eq, List.append_assoc, List.cons_append,
    List.append_assoc, List.singleton_append] at hs hM
  refine .bind (parsePath_gives hs TokenKind.noConfusion) fun result s1 h1 => ?_
  have hbind : Input.bindingSegment result = none := by
    rw [← Option.map_eq_none_iff (f := Ident.plain), bindingSegment_plain, h1.1,
      bindingSegment_tree, hlegible.1, if_neg Bool.false_ne_true]
  rw [hbind]
  refine .decline h1.2 TokenKind.noConfusion TokenKind.noConfusion (.no Bool.false_ne_true ?_)
  refine .accept h1.2 TokenKind.noConfusion fun s2 (hs2 : At inp m
    (commas trailing (fields.map FieldPatternText.lexemes) ++ symbol .rBrace :: ls) s2) => .yes rfl ?_
  have hlt : (commas trailing (fields.map FieldPatternText.lexemes) ++
      symbol .rBrace :: ls).length < M := by
    simp only [List.length_append, List.length_cons] at hM ⊢
    omega
  have hstart : ∀ field ∈ fields, Begins .rBrace (FieldPatternText.lexemes field) := by
    intro field _
    cases field with
    | short => exact ⟨_, _, rfl, TokenKind.noConfusion, TokenKind.noConfusion⟩
    | long => exact ⟨_, _, rfl, TokenKind.noConfusion, TokenKind.noConfusion⟩
  have hlist := Takes.commaRest TokenKind.noConfusion TokenKind.noConfusion hstart
    (h.fields trailing hlegible.2) [] _ s2 hs2 hlt rfl
  refine .bind hlist fun results s3 h3 => ?_
  refine .expect h3.2 TokenKind.noConfusion fun s4 hs4 => .spanned hmark fun span => ⟨?_, hs4⟩
  rw [Pattern.plain, Pattern.plainFields_eq, h3.1, h1.1, PatternText.tree, FieldPatternText.trees_eq]
  rfl

theorem parseNamedPattern_name {name : String} {ls : List Lexeme} {s : PState} {mark : Nat}
    (hmark : mark < inp.count) (hbinds : bindingName name = true) (hk : nextKind ls ≠ .colonColon)
    (hs : At inp m (segment name :: ls) s) :
    Gives (inp.parseNamedPattern mark back) s fun result s' =>
      result.plain = (PatternText.name name).tree ∧ At inp m ls s' := by
  have hpath : At inp m ((⟨name, []⟩ : PathText).lexemes ++ ls) s := hs
  refine .bind (parsePath_gives hpath hk) fun result s1 h1 => ?_
  have hbind : (Input.bindingSegment result).map Ident.plain = some (plainIdent name) := by
    rw [bindingSegment_plain, h1.1, bindingSegment_tree]
    exact if_pos hbinds
  obtain ⟨segment, hsegment, hplain⟩ := Option.map_eq_some_iff.1 hbind
  rw [hsegment]
  exact .spanned hmark fun span => ⟨congrArg (Pattern.ident default) hplain, h1.2⟩

/-- What `parse_primary_pattern` does by the kind of its first token. -/
def Input.patternBranch (inp : Input) (mark : Nat) (back : Input.PatternRec) (t : Token)
    (kind : TokenKind) : PM Pattern := do
  match kind with
  | .underscore =>
    inp.advance
    return .wildcard (← inp.spanFrom mark)
  | .mut =>
    inp.advance
    let name ← inp.parseIdent "pattern name"
    return .mutIdent (← inp.spanFrom mark) name
  | .minus =>
    inp.advance
    let number ← inp.peek
    if number.kind = .integer then
      inp.advance
      return .literal (← inp.spanFrom mark) (inp.tokenLiteral .integer number)
    else if number.kind = .float then
      inp.advance
      return .literal (← inp.spanFrom mark) (inp.tokenLiteral .float number)
    else
      inp.expect .integer "number literal"
      fail
  | .amp =>
    inp.advance
    let isMut ← inp.accept .mut
    let inner ← back.primary
    return .ref (← inp.spanFrom mark) isMut inner
  | .lParen =>
    inp.advance
    inp.parseParenPattern mark back
  | kind =>
    match Input.literalKind kind with
    | some literal =>
      inp.advance
      return .literal (← inp.spanFrom mark) (inp.tokenLiteral literal t)
    | none => inp.parseNamedPattern mark back

theorem Input.parsePrimaryPattern_eq (back : Input.PatternRec) : inp.parsePrimaryPattern back =
    PM.here >>= fun mark => inp.peek >>= fun t => inp.patternBranch mark (back.after mark) t t.kind :=
  rfl

theorem tokenLiteral_plain {t : Token} {kind : LiteralKind} {spelling : String}
    (h : inp.lexeme t = literalText kind spelling) :
    (Input.tokenLiteral inp kind t).plain = plainLiteral kind spelling := by
  refine congrArg (Literal.mk kind default) (Input.lexeme_text h ?_)
  cases kind with
  | bool =>
    rw [literalText, literalToken]
    split <;> rfl
  | _ => rfl

theorem parsePrimaryPattern_takes (h : PatternsRead inp m M back) {pattern : PatternText}
    (hlegible : pattern.legible = true) (hor : pattern.isOr = false) (hk : endsPrimary k = true) :
    Takes inp m (M + 1) (inp.parsePrimaryPattern back) pattern.lexemes k fun result =>
      result.plain = pattern.tree := by
  intro ls s hs hM hnext
  have hmark := hs.lt
  have hback := h.after hs (Nat.le_of_lt_succ hM)
  rw [Input.parsePrimaryPattern_eq]
  refine .here ?_
  cases pattern with
  | wildcard =>
    refine .peek hs fun t ht => ?_
    rw [show t.kind = .underscore from congrArg Lexeme.kind ht]
    exact .advance hs TokenKind.noConfusion fun s1 hs1 => .spanned hmark fun span => ⟨rfl, hs1⟩
  | name name =>
    refine .peek hs fun t ht => ?_
    rw [show t.kind = segmentKind name from congrArg Lexeme.kind ht]
    rw [endsPrimary, Bool.and_eq_true, Bool.and_eq_true, bne_iff_ne] at hk
    have hname : Gives (inp.parseNamedPattern s.pos (back.after s.pos)) s fun result s' =>
        result.plain = (PatternText.name name).tree ∧ At inp m ls s' :=
      parseNamedPattern_name hmark hlegible (hnext ▸ hk.1.1) hs
    rcases segmentKind_cases name with h | h | h | h | h <;> rw [h] <;> exact hname
  | mutName name =>
    refine .peek hs fun t ht => ?_
    rw [show t.kind = .mut from congrArg Lexeme.kind ht]
    refine .advance hs TokenKind.noConfusion fun s1 hs1 => ?_
    refine .bind (parseIdent_takes name _ ls s1 hs1 hs1.lt_fuel hnext) fun result s2 h2 => ?_
    exact .spanned hmark fun span => ⟨congrArg (Pattern.mutIdent default) h2.1, h2.2⟩
  | literal negative kind spelling =>
    cases negative with
    | true =>
      refine .peek hs fun t ht => ?_
      rw [show t.kind = .minus from congrArg Lexeme.kind ht]
      refine .advance hs TokenKind.noConfusion fun s1 (hs1 : At inp m
        (literalText kind spelling :: ls) s1) => .peek hs1 fun number hnumber => ?_
      have hkind : number.kind = literalToken kind spelling := congrArg Lexeme.kind hnumber
      have hplain := tokenLiteral_plain hnumber
      cases kind with
      | integer =>
        refine .yes hkind (.advance hs1 TokenKind.noConfusion fun s2 hs2 => ?_)
        exact .spanned hmark fun span => ⟨congrArg (Pattern.literal default) hplain, hs2⟩
      | float =>
        refine .no (fun h => TokenKind.noConfusion (hkind.symm.trans h)) (.yes hkind ?_)
        refine .advance hs1 TokenKind.noConfusion fun s2 hs2 => ?_
        exact .spanned hmark fun span => ⟨congrArg (Pattern.literal default) hplain, hs2⟩
      | _ => exact absurd hlegible Bool.false_ne_true
    | false =>
      refine .peek hs fun t ht => ?_
      rw [show t.kind = literalToken kind spelling from congrArg Lexeme.kind ht]
      have hplain := tokenLiteral_plain ht
      have hlit : Gives (inp.advance >>= fun _ => inp.spanFrom s.pos >>= fun span =>
          pure (Pattern.literal span (inp.tokenLiteral kind t))) s fun result s' =>
            result.plain = (PatternText.literal false kind spelling).tree ∧ At inp m ls s' := by
        refine .advance hs ?_ fun s1 hs1 =>
          .spanned hmark fun span => ⟨congrArg (Pattern.literal default) hplain, hs1⟩
        exact startsPattern_ne (startsPattern_literal kind spelling) rfl
      cases kind with
      | bool =>
        rw [literalToken]
        split <;> exact hlit
      | _ => exact hlit
  | tuple elements trailing =>
    rw [PatternText.lexemes, List.cons_append, List.append_assoc, List.singleton_append] at hs hback
    refine .peek hs fun t ht => ?_
    rw [show t.kind = .lParen from congrArg Lexeme.kind ht]
    refine .advance hs TokenKind.noConfusion fun s1 hs1 => ?_
    exact parseParenPattern_tuple hback hmark hlegible hs1 (Nat.lt_succ_self _)
  | variant path elements trailing =>
    have hnamed := parseNamedPattern_variant hback hmark hlegible (hnext ▸ hk) hs (Nat.le_refl _)
    refine .peek hs fun t ht => ?_
    rw [show t.kind = segmentKind path.first from congrArg Lexeme.kind ht]
    rcases segmentKind_cases path.first with h | h | h | h | h <;> rw [h] <;> exact hnamed
  | struct path fields trailing =>
    have hnamed := parseNamedPattern_struct hback hmark hlegible hs (Nat.le_refl _)
    refine .peek hs fun t ht => ?_
    rw [show t.kind = segmentKind path.first from congrArg Lexeme.kind ht]
    rcases segmentKind_cases path.first with h | h | h | h | h <;> rw [h] <;> exact hnamed
  | ref isMut inner =>
    rw [PatternText.legible, Bool.and_eq_true, Bool.and_eq_true, Bool.or_eq_true, Bool.not_eq_true',
      Bool.not_eq_true'] at hlegible
    rw [PatternText.lexemes, List.cons_append, List.append_assoc] at hs hback
    refine .peek hs fun t ht => ?_
    rw [show t.kind = .amp from congrArg Lexeme.kind ht]
    refine .advance hs TokenKind.noConfusion fun s1 hs1 => ?_
    obtain ⟨l, tl, hl, -, hmut⟩ := inner.begin
    have hlt : (inner.lexemes ++ ls).length <
        (symbol .amp :: (mutText isMut ++ (inner.lexemes ++ ls))).length := by
      simp only [List.length_append, List.length_cons]
      omega
    have hinner : ∀ s', At inp m (inner.lexemes ++ ls) s' → Gives (back.after s.pos).primary s'
        fun result s2 => result.plain = inner.tree ∧ At inp m ls s2 := fun s' hs' =>
      hback.primary inner k hlegible.2 hlegible.1.2 hk ls s' hs' hlt hnext
    cases isMut with
    | true =>
      refine .accept hs1 TokenKind.noConfusion fun s2 hs2 => ?_
      refine .bind (hinner s2 hs2) fun result s3 h3 => .spanned hmark fun span => ⟨?_, h3.2⟩
      exact congrArg (Pattern.ref default true) h3.1
    | false =>
      have hne : nextKind (inner.lexemes ++ ls) ≠ .mut := by
        rw [hl]
        exact hmut (hlegible.1.1.resolve_left Bool.false_ne_true) hlegible.1.2
      refine .decline hs1 TokenKind.noConfusion hne ?_
      refine .bind (hinner s1 hs1) fun result s3 h3 => .spanned hmark fun span => ⟨?_, h3.2⟩
      exact congrArg (Pattern.ref default false) h3.1
  | or first others => exact absurd hor Bool.noConfusion
  | paren inner =>
    rw [PatternText.lexemes, List.cons_append, List.append_assoc, List.singleton_append] at hs hback
    refine .peek hs fun t ht => ?_
    rw [show t.kind = .lParen from congrArg Lexeme.kind ht]
    refine .advance hs TokenKind.noConfusion fun s1 hs1 => ?_
    have hinner : Gives (inp.parseParenPattern s.pos (back.after s.pos)) s1 fun result s' =>
        result.plain = inner.tree ∧ At inp m ls s' :=
      parseParenPattern_paren hback hlegible hs1 (Nat.lt_succ_self _)
    exact hinner

/-- A round of the loop over alternatives. -/
def Input.orRound (inp : Input) (back : Input.PatternRec) (acc : List Pattern) :
    PM (List Pattern × Bool) := do
  let alternative ← inp.parsePrimaryPattern back
  if ← inp.accept .pipe then return (acc ++ [alternative], true)
  else return (acc ++ [alternative], false)

theorem orRounds_give (h : PatternsRead inp m M back) (hk : endsPattern k = true)
    {others : List PatternText} {pattern : PatternText} {acc : List Pattern} {fuel : Nat}
    {ls : List Lexeme} {s : PState} (hlegible : PatternText.primaries (pattern :: others) = true)
    (hs : At inp m (pattern.lexemes ++ PatternText.alternatives others ++ ls) s)
    (hM : (pattern.lexemes ++ PatternText.alternatives others ++ ls).length < M + 1)
    (hfuel : (pattern.lexemes ++ PatternText.alternatives others ++ ls).length < fuel)
    (hnext : nextKind ls = k) :
    Gives (loopM (inp.orRound back) fuel acc) s fun results s' =>
      results.map Pattern.plain = acc.map Pattern.plain ++
        (pattern :: others).map PatternText.tree ∧ At inp m ls s' := by
  rw [endsPattern, Bool.and_eq_true, bne_iff_ne] at hk
  induction others generalizing pattern s acc fuel with
  | nil =>
    obtain ⟨fuel, rfl⟩ := Nat.exists_eq_succ_of_ne_zero (Nat.ne_zero_of_lt hfuel)
    rw [PatternText.primaries, Bool.and_eq_true, Bool.and_eq_true, Bool.not_eq_true'] at hlegible
    rw [PatternText.alternatives, List.append_nil] at hs hM
    refine .stop (.bind (parsePrimaryPattern_takes h hlegible.1.2 hlegible.1.1 hk.1 ls s hs hM hnext)
      fun result s1 h1 => ?_)
    refine .decline h1.2 TokenKind.noConfusion (hnext ▸ hk.2) (.no Bool.false_ne_true ?_)
    refine .pure ⟨rfl, ?_, h1.2⟩
    rw [List.map_append, List.map_singleton, h1.1]
    rfl
  | cons next others ih =>
    obtain ⟨fuel, rfl⟩ := Nat.exists_eq_succ_of_ne_zero (Nat.ne_zero_of_lt hfuel)
    rw [PatternText.primaries, Bool.and_eq_true, Bool.and_eq_true, Bool.not_eq_true'] at hlegible
    rw [PatternText.alternatives, List.append_assoc, List.cons_append] at hs hM hfuel
    refine .round (.bind (parsePrimaryPattern_takes h hlegible.1.2 hlegible.1.1 rfl _ s hs hM rfl)
      fun result s1 h1 => ?_)
    refine .accept h1.2 TokenKind.noConfusion fun s2 (hs2 : At inp m
      (next.lexemes ++ PatternText.alternatives others ++ ls) s2) => .yes rfl ?_
    have hlt : (next.lexemes ++ PatternText.alternatives others ++ ls).length < (pattern.lexemes ++
        symbol .pipe :: (next.lexemes ++ PatternText.alternatives others ++ ls)).length := by
      simp only [List.length_append, List.length_cons]
      omega
    refine .pure ⟨rfl, hs.pos_lt hs2 hlt, ?_⟩
    refine (ih hlegible.2 hs2 (Nat.lt_trans hlt hM)
      (Nat.lt_of_lt_of_le hlt (Nat.le_of_lt_succ hfuel))).mono fun results s3 h3 => ⟨?_, h3.2⟩
    rw [h3.1, List.map_append, List.map_singleton, h1.1, List.append_assoc]
    rfl

theorem parseOrPattern_takes (h : PatternsRead inp m M back) {pattern : PatternText}
    (hlegible : pattern.legible = true) (hk : endsPattern k = true) :
    Takes inp m (M + 1) (inp.parseOrPattern back) pattern.lexemes k fun result =>
      result.plain = pattern.tree := by
  intro ls s hs hM hnext
  have hmark := hs.lt
  have hends := hk
  rw [endsPattern, Bool.and_eq_true, bne_iff_ne] at hends
  refine .here ?_
  by_cases hor : pattern.isOr = true
  · cases pattern with
    | or first others =>
      rw [PatternText.legible, Bool.and_eq_true, Bool.and_eq_true, Bool.and_eq_true,
        Bool.not_eq_true', Bool.not_eq_true'] at hlegible
      cases others with
      | nil => exact absurd hlegible.1.2 Bool.noConfusion
      | cons second others =>
        rw [PatternText.lexemes, PatternText.alternatives, List.append_assoc, List.cons_append] at hs hM
        refine .bind (parsePrimaryPattern_takes h hlegible.1.1.2 hlegible.1.1.1 rfl _ s hs hM rfl)
          fun result s1 h1 => ?_
        refine .accept h1.2 TokenKind.noConfusion fun s2 (hs2 : At inp m
          (second.lexemes ++ PatternText.alternatives others ++ ls) s2) => .yes rfl ?_
        have hlt : (second.lexemes ++ PatternText.alternatives others ++ ls).length < M + 1 := by
          refine Nat.lt_trans ?_ hM
          simp only [List.length_append, List.length_cons]
          omega
        refine .bind (orRounds_give h hk hlegible.2 hs2 hlt hs2.lt_fuel hnext)
          fun results s3 h3 => .spanned hmark fun span => ⟨?_, h3.2⟩
        change Pattern.or default (Pattern.plainAll results) = _
        rw [Pattern.plainAll_eq, h3.1, PatternText.tree, PatternText.trees_eq,
          List.map_singleton, h1.1]
        rfl
    | _ => exact absurd hor Bool.noConfusion
  · refine .bind (parsePrimaryPattern_takes h hlegible (Bool.eq_false_iff.2 hor) hends.1 ls s hs hM
      hnext) fun result s1 h1 => ?_
    refine .decline h1.2 TokenKind.noConfusion (hnext ▸ hends.2) (.no Bool.false_ne_true ?_)
    exact .pure h1

theorem patternLevel_reads (depth : Nat) :
    PatternsRead inp m (depth + 1) (inp.patternLevel depth) := by
  induction depth with
  | zero =>
    have hnone : ∀ {p : PM Pattern} {text : List Lexeme} {k : TokenKind} {good : Pattern → Prop},
        Takes inp m 1 p text k good := by
      intro p text k good ls s hs hM _
      have := List.length_pos_iff.2 hs.stream.ne_nil
      omega
    exact ⟨fun _ _ _ _ => hnone, fun _ _ _ _ _ => hnone⟩
  | succ depth ih =>
    exact ⟨fun _ _ hp hk => parseOrPattern_takes ih hp hk,
      fun _ _ hp hor hk => parsePrimaryPattern_takes ih hp hor hk⟩

/-- `parse_pattern` takes every legible pattern. -/
theorem parsePattern_takes {pattern : PatternText} (hlegible : pattern.legible = true)
    (hk : endsPattern k = true) : Takes inp m M inp.parsePattern pattern.lexemes k fun result =>
      result.plain = pattern.tree :=
  fun ls s hs _ hnext => (patternLevel_reads _).pattern pattern k hlegible hk ls s hs
    (Nat.lt_succ_of_lt hs.lt_fuel) hnext

end Alcy.Parser
