import Alcy.Parser.Plain
import Alcy.Parser.Reading

/-! # Types as text

Paths and types as they are spelled, and what `parse_path` and `parse_type` make of them. Closing
brackets are spelled one by one and then read by longest match, so that a `>>` may close two lists;
`Amid` says where a state stands when the first half of one has been used. -/
namespace Alcy.Parser
open Alcy.Ast Alcy.Diag
open Alcy.Lexer (Token TokenKind)
open PM

/-! ## Paths -/

/-- The segments of a path: there is at least one. -/
structure PathText where
  first : String
  rest : List String
  deriving Repr, DecidableEq

def segmentKind (name : String) : TokenKind :=
  if name = "self" then .self
  else if name = "super" then .super
  else if name = "package" then .package
  else if name = "Self" then .selfType
  else .ident

def segment (name : String) : Lexeme := ⟨segmentKind name, name⟩

def plainIdent (name : String) : Ident := ⟨name, default⟩

def segmentsText : List String → List Lexeme
  | [] => []
  | name :: names => symbol .colonColon :: segment name :: segmentsText names

def PathText.lexemes (path : PathText) : List Lexeme :=
  segment path.first :: segmentsText path.rest

def PathText.tree (path : PathText) : Path :=
  ⟨(path.first :: path.rest).map plainIdent, default⟩

theorem segmentKind_cases (name : String) : segmentKind name = .self ∨ segmentKind name = .super ∨
    segmentKind name = .package ∨ segmentKind name = .selfType ∨ segmentKind name = .ident := by
  grind [segmentKind]

theorem isPathSegment_segmentKind (name : String) : isPathSegment (segmentKind name) = true := by
  rcases segmentKind_cases name with h | h | h | h | h <;> rw [h] <;> rfl

theorem segmentKind_spelled (name : String) : spelled (segmentKind name) = true := by
  rcases segmentKind_cases name with h | h | h | h | h <;> rw [h] <;> rfl

/-- The kind of a segment is none that is no path segment. -/
theorem segmentKind_ne (name : String) {k : TokenKind} (hk : isPathSegment k = false) :
    segmentKind name ≠ k := by
  intro h
  rw [← h, isPathSegment_segmentKind] at hk
  exact Bool.false_ne_true hk.symm

variable {inp : Input} {m : Mode} {ls : List Lexeme} {s : PState}

theorem tokenIdent_plain {t : Token} {l : Lexeme} (h : inp.lexeme t = l)
    (hl : spelled l.kind = true) : (inp.tokenIdent t).plain = plainIdent l.text :=
  congrArg plainIdent (Input.lexeme_text h hl)

/-- A round of the loop in `parse_path`. -/
def Input.segmentsRound (inp : Input) (segments : List Ident) : PM (List Ident × Bool) := do
  let t ← inp.peek
  if isPathSegment t.kind then
    inp.advance
    let segments := segments ++ [inp.tokenIdent t]
    if ← inp.accept .colonColon then
      if ← inp.atEnd then
        inp.expect .ident "path segment"
        fail
      else return (segments, true)
    else return (segments, false)
  else if segments.isEmpty then
    inp.expect .ident "path"
    fail
  else return (segments, false)

theorem segmentsRounds_give {names : List String} {name : String} {acc : List Ident} {fuel : Nat}
    (hs : At inp m (segment name :: (segmentsText names ++ ls)) s)
    (hfuel : (segment name :: (segmentsText names ++ ls)).length < fuel)
    (hk : nextKind ls ≠ .colonColon) :
    Gives (loopM inp.segmentsRound fuel acc) s fun segments s' =>
      segments.map Ident.plain = acc.map Ident.plain ++ (name :: names).map plainIdent ∧
        At inp m ls s' := by
  induction names generalizing name s acc fuel with
  | nil =>
    obtain ⟨fuel, rfl⟩ := Nat.exists_eq_succ_of_ne_zero (Nat.ne_zero_of_lt hfuel)
    refine .stop (.peek hs fun t ht => ?_)
    have hkind : t.kind = segmentKind name := congrArg Lexeme.kind ht
    refine .yes (hkind ▸ isPathSegment_segmentKind name) ?_
    refine .advance hs (segmentKind_ne name rfl) fun s1 hs1 => ?_
    refine .decline hs1 TokenKind.noConfusion hk (.no Bool.false_ne_true (.pure ⟨rfl, ?_, hs1⟩))
    rw [List.map_append, List.map_singleton, tokenIdent_plain ht (segmentKind_spelled name)]
    rfl
  | cons next names ih =>
    obtain ⟨fuel, rfl⟩ := Nat.exists_eq_succ_of_ne_zero (Nat.ne_zero_of_lt hfuel)
    refine .round (.peek hs fun t ht => ?_)
    have hkind : t.kind = segmentKind name := congrArg Lexeme.kind ht
    refine .yes (hkind ▸ isPathSegment_segmentKind name) ?_
    refine .advance hs (segmentKind_ne name rfl) fun s1 hs1 => ?_
    refine .accept hs1 TokenKind.noConfusion
      fun s2 (hs2 : At inp m (segment next :: (segmentsText names ++ ls)) s2) => ?_
    refine .yes rfl (.atEnd hs2 ?_)
    refine .no (fun h => segmentKind_ne next rfl (beq_iff_eq.1 h)) (.pure ⟨rfl, ?_, ?_⟩)
    · refine hs.pos_lt hs2 ?_
      simp only [segmentsText, List.cons_append, List.length_cons, List.length_append]
      omega
    · have hlt : (segment next :: (segmentsText names ++ ls)).length < fuel := by
        simp only [segmentsText, List.cons_append, List.length_cons] at hfuel ⊢
        omega
      refine (ih hs2 hlt).mono fun segments s3 h => ⟨?_, h.2⟩
      rw [h.1, List.map_append, List.map_singleton, tokenIdent_plain ht (segmentKind_spelled name),
        List.append_assoc]
      rfl

theorem parsePath_gives {path : PathText} (hs : At inp m (path.lexemes ++ ls) s)
    (hk : nextKind ls ≠ .colonColon) :
    Gives inp.parsePath s fun result s' => result.plain = path.tree ∧ At inp m ls s' := by
  refine .here (.bind (Q := fun segments s' =>
    segments.map Ident.plain = (path.first :: path.rest).map plainIdent ∧ At inp m ls s') ?_ ?_)
  · exact (segmentsRounds_give hs hs.lt_fuel hk).mono fun segments s' h => h
  · intro segments s' h
    exact .spanned hs.lt fun span => ⟨congrArg (Ast.Path.mk · default) h.1, h.2⟩

/-! ## Longest match -/

def gt : Lexeme := symbol .greater

/-- Two adjacent `>` are read as one `>>`, from the left. -/
def munch : List Lexeme → List Lexeme
  | [] => []
  | [l] => [l]
  | l :: l' :: ls =>
    if l.kind = .greater ∧ l'.kind = .greater then symbol .greaterGreater :: munch ls
    else l :: munch (l' :: ls)

@[simp] theorem munch_nil : munch [] = [] := rfl

theorem munch_cons {l : Lexeme} (hl : l.kind ≠ .greater) (ls : List Lexeme) :
    munch (l :: ls) = l :: munch ls := by
  cases ls with
  | nil => rfl
  | cons l' ls => rw [munch, if_neg fun h => hl h.1]

theorem munch_gt_gt (ls : List Lexeme) : munch (gt :: gt :: ls) = symbol .greaterGreater :: munch ls :=
  if_pos ⟨rfl, rfl⟩

theorem munch_gt {ls : List Lexeme} (h : nextKind ls ≠ .greater) : munch (gt :: ls) = gt :: munch ls := by
  cases ls with
  | nil => rfl
  | cons l ls => rw [munch, if_neg fun hl => h hl.2]

/-- Anything else keeps two closing brackets apart. -/
theorem munch_append {l : Lexeme} (hl : l.kind ≠ .greater) (ls ls' : List Lexeme) :
    munch (ls ++ l :: ls') = munch ls ++ l :: munch ls' := by
  fun_induction munch ls with
  | case1 => exact munch_cons hl ls'
  | case2 l0 => rw [List.singleton_append, munch, if_neg fun h => hl h.2, munch_cons hl]; rfl
  | case3 l0 l1 ls h ih =>
    rw [List.cons_append, List.cons_append, munch, if_pos h, ih]
    rfl
  | case4 l0 l1 ls h ih =>
    rw [List.cons_append, List.cons_append, munch, if_neg h, ← List.cons_append, ih]
    rfl

theorem munch_prefix {ls : List Lexeme} (h : ∀ l ∈ ls, l.kind ≠ .greater) (ls' : List Lexeme) :
    munch (ls ++ ls') = ls ++ munch ls' := by
  induction ls with
  | nil => rfl
  | cons l ls ih =>
    rw [List.cons_append, munch_cons (h l List.mem_cons_self),
      ih fun l' hl' => h l' (List.mem_cons_of_mem _ hl')]
    rfl

theorem segmentsText_ne_gt (names : List String) : ∀ l ∈ segmentsText names, l.kind ≠ .greater := by
  induction names with
  | nil => exact fun l hl => absurd hl List.not_mem_nil
  | cons name names ih =>
    intro l hl
    rcases List.mem_cons.1 hl with rfl | hl
    · exact TokenKind.noConfusion
    · rcases List.mem_cons.1 hl with rfl | hl
      · exact segmentKind_ne name rfl
      · exact ih l hl

theorem munch_path (path : PathText) (ls : List Lexeme) :
    munch (path.lexemes ++ ls) = path.lexemes ++ munch ls := by
  refine munch_prefix (fun l hl => ?_) ls
  rcases List.mem_cons.1 hl with rfl | hl
  · exact segmentKind_ne path.first rfl
  · exact segmentsText_ne_gt path.rest l hl

/-! ## Types -/

/-- A type as it is spelled. The empty tuple is `()`; a tuple of one element has its comma. -/
inductive TypeText where
  | primitive (kind : PrimitiveKind)
  | never
  | tuple (elements : List TypeText) (trailing : Bool)
  | path (path : PathText) (args : List TypeText)
  | ref (isMut : Bool) (inner : TypeText)

def primitiveToken : PrimitiveKind → TokenKind
  | .i8 => .i8
  | .i16 => .i16
  | .i32 => .i32
  | .i64 => .i64
  | .i128 => .i128
  | .isize => .isize
  | .u8 => .u8
  | .u16 => .u16
  | .u32 => .u32
  | .u64 => .u64
  | .u128 => .u128
  | .usize => .usize
  | .f32 => .f32
  | .f64 => .f64
  | .bool => .bool
  | .str => .str

/-- The parser has a node of its own for `str`. -/
def primitiveTree : PrimitiveKind → Ty
  | .str => .str default
  | kind => .primitive default kind

def mutText (isMut : Bool) : List Lexeme := if isMut then [symbol .mut] else []

theorem Gives.mut {β : Type} {f : Bool → PM β} {R : β → PState → Prop} {isMut : Bool}
    (hs : At inp m (mutText isMut ++ ls) s) (hne : nextKind ls ≠ .mut)
    (hf : ∀ s', At inp m ls s' → Gives (f isMut) s' R) : Gives (inp.accept .mut >>= f) s R := by
  cases isMut with
  | true => exact .accept hs TokenKind.noConfusion hf
  | false => exact .decline hs TokenKind.noConfusion hne (hf s hs)

theorem munch_mut (isMut : Bool) (ls : List Lexeme) :
    munch (mutText isMut ++ ls) = mutText isMut ++ munch ls := by
  cases isMut with
  | true => exact munch_cons TokenKind.noConfusion ls
  | false => rfl

mutual

/-- The lexemes of a type, with its closing brackets one by one. -/
def TypeText.halves : TypeText → List Lexeme
  | .primitive kind => [symbol (primitiveToken kind)]
  | .never => [symbol .bang]
  | .tuple elements trailing =>
    symbol .lParen :: (TypeText.listHalves (trailing || elements.length == 1) elements ++
      [symbol .rParen])
  | .path name args =>
    name.lexemes ++ if args.isEmpty then []
      else symbol .less :: (TypeText.listHalves false args ++ [gt])
  | .ref isMut inner => symbol .amp :: (mutText isMut ++ inner.halves)

def TypeText.listHalves (trailing : Bool) : List TypeText → List Lexeme
  | [] => []
  | type :: types =>
    type.halves ++ (if types.isEmpty && !trailing then [] else [symbol .comma]) ++
      TypeText.listHalves trailing types

end

mutual

def TypeText.tree : TypeText → Ty
  | .primitive kind => primitiveTree kind
  | .never => .never default
  | .tuple elements _ =>
    if elements.isEmpty then .unit default else .tuple default (TypeText.trees elements)
  | .path name args => .path default name.tree (TypeText.trees args)
  | .ref isMut inner => .ref default isMut inner.tree

def TypeText.trees : List TypeText → List Ty
  | [] => []
  | type :: types => type.tree :: TypeText.trees types

end

mutual

/-- How many closing brackets a type ends in. -/
def TypeText.run : TypeText → Nat
  | .path _ args => if args.isEmpty then 0 else TypeText.lastRun args + 1
  | .ref _ inner => inner.run
  | _ => 0

def TypeText.lastRun : List TypeText → Nat
  | [] => 0
  | type :: types => if types.isEmpty then type.run else TypeText.lastRun types

end

/-- A type that ends in a path without arguments. -/
def TypeText.bare : TypeText → Bool
  | .path _ args => args.isEmpty
  | .ref _ inner => inner.bare
  | _ => false

/-- A type whose last token is a `>>` takes a comma that follows it for its own. -/
def TypeText.steals (type : TypeText) : Bool := type.run != 0 && type.run % 2 == 0

mutual

/-- No type inside takes a comma of the list it stands in. -/
def TypeText.legible : TypeText → Bool
  | .tuple elements trailing =>
    TypeText.listLegible (trailing || elements.length == 1) elements
  | .path _ args => TypeText.listLegible false args
  | .ref _ inner => inner.legible
  | _ => true

def TypeText.listLegible (trailing : Bool) : List TypeText → Bool
  | [] => true
  | type :: types =>
    type.legible && (types.isEmpty && !trailing || !type.steals) &&
      TypeText.listLegible trailing types

end

/-- A type that ends before a lexeme of this kind. -/
def TypeText.stops (type : TypeText) (k : TokenKind) : Bool :=
  !(type.bare && (k == .colonColon || k == .less)) && !(type.steals && k == .comma)

/-! ## How a type begins and what follows it -/

/-- The kinds a type begins with. -/
def startsType (k : TokenKind) : Bool :=
  (Input.primitiveKind k).isSome || isPathSegment k || k == .str || k == .bang || k == .lParen || k == .amp

theorem halves_begin (type : TypeText) :
    ∃ l ls, type.halves = l :: ls ∧ startsType l.kind = true := by
  cases type with
  | primitive kind => exact ⟨_, [], rfl, by cases kind <;> rfl⟩
  | never => exact ⟨_, [], rfl, rfl⟩
  | tuple elements trailing => exact ⟨_, _, rfl, rfl⟩
  | path name args =>
    refine ⟨_, _, rfl, ?_⟩
    rw [startsType, segment, isPathSegment_segmentKind, Bool.or_true]
    rfl
  | ref isMut inner => exact ⟨_, _, rfl, rfl⟩

theorem startsType_ne {l : Lexeme} (h : startsType l.kind = true) {k : TokenKind}
    (hk : startsType k = false) : l.kind ≠ k := by
  intro heq
  rw [heq, hk] at h
  exact Bool.false_ne_true h

theorem nextKind_munch_ne {K rest : List Lexeme} {k : TokenKind} (hk : k ≠ .greaterGreater)
    (h : nextKind (K ++ rest) ≠ k) : nextKind (munch K ++ rest) ≠ k := by
  fun_cases munch K with
  | case1 => exact h
  | case2 l => exact h
  | case3 l l' ls => exact hk.symm
  | case4 l l' ls => exact h

theorem munch_listHalves {l : Lexeme} (hl : l.kind ≠ .greater) (K : List Lexeme) (trailing : Bool)
    (types : List TypeText) : munch (TypeText.listHalves trailing types ++ l :: K) =
      commas trailing (types.map fun type => munch type.halves) ++ l :: munch K := by
  induction types with
  | nil => exact munch_cons hl K
  | cons type types ih =>
    rw [TypeText.listHalves, List.map_cons, commas, List.isEmpty_map]
    split
    · rw [List.append_nil, List.append_nil]
      cases types with
      | nil =>
        rw [TypeText.listHalves, List.append_nil, List.map_nil, commas, List.append_nil]
        exact munch_append hl _ _
      | cons => simp_all
    · have hcomma : (symbol .comma).kind ≠ .greater := TokenKind.noConfusion
      simp only [List.append_assoc, List.cons_append, List.nil_append]
      rw [munch_append hcomma, ih]

theorem trees_eq (types : List TypeText) : TypeText.trees types = types.map TypeText.tree := by
  induction types with
  | nil => rfl
  | cons type types ih => rw [TypeText.trees, ih, List.map_cons]

theorem TypeText.stops_of_ne (type : TypeText) {k : TokenKind} (hcolon : k ≠ .colonColon)
    (hless : k ≠ .less) (hcomma : k ≠ .comma) : type.stops k = true := by
  rw [TypeText.stops, beq_eq_false_iff_ne.2 hcolon, beq_eq_false_iff_ne.2 hless,
    beq_eq_false_iff_ne.2 hcomma, Bool.or_false, Bool.and_false, Bool.and_false]
  rfl

theorem TypeText.stops_comma {type : TypeText} (h : type.steals = false) :
    type.stops .comma = true := by
  rw [TypeText.stops, h]
  cases type.bare <;> rfl

/-- The elements of a legible list end where they should. -/
theorem listLegible_followed {close : TokenKind} (hcolon : close ≠ .colonColon)
    (hless : close ≠ .less) (hcomma : close ≠ .comma) {trailing : Bool} :
    ∀ {types : List TypeText}, TypeText.listLegible trailing types = true →
      Followed close trailing (fun type k => type.legible = true ∧ type.stops k = true) types
  | [], _ => trivial
  | type :: types, h => by
    rw [TypeText.listLegible, Bool.and_eq_true, Bool.and_eq_true, Bool.or_eq_true,
      Bool.not_eq_true'] at h
    refine ⟨⟨h.1.1, ?_⟩, listLegible_followed hcolon hless hcomma h.2⟩
    split
    · exact type.stops_of_ne hcolon hless hcomma
    · rename_i hlast
      exact TypeText.stops_comma (h.1.2.resolve_left hlast)

/-! ## In the middle of a type -/

def Mode.banked (m : Mode) (bank : Nat) : Mode := ⟨bank, m.allow, m.bag⟩

/-- The state stands before `K` and then `rest`, with or without the first half of a `>>` used. -/
inductive Amid (inp : Input) (m : Mode) (rest : List Lexeme) :
    Bool → List Lexeme → PState → Prop where
  | whole {K : List Lexeme} {s : PState} : At inp (m.banked 0) (munch K ++ rest) s →
      Amid inp m rest false K s
  | half {l : Lexeme} {K : List Lexeme} {s : PState} : l.kind = .greater →
      At inp (m.banked 1) (munch K ++ rest) s → Amid inp m rest true (l :: K) s

variable {rest K : List Lexeme} {half : Bool}

theorem Amid.at (h : Amid inp m rest false K s) : At inp (m.banked 0) (munch K ++ rest) s := by
  cases h with
  | whole h => exact h

theorem At.rebank {m : Mode} {n : Nat} (h : At inp m ls s) :
    At inp (m.banked n) ls { s with bankedGt := n } :=
  ⟨h.ahead, h.stream, rfl, h.allow, h.bag⟩

/-- `consume_gt` takes one closing bracket. -/
theorem Amid.consumeGt (h : Amid inp m rest half (gt :: K) s) :
    Gives inp.consumeGt s fun r s' => r = true ∧
      Amid inp m rest (!half && nextKind K == .greater) K s' := by
  cases h with
  | half _ h =>
    refine .step rfl (.yes ?_ (.step rfl (.pure ⟨rfl, .whole ?_⟩)))
    · rw [h.bank]
      exact Nat.one_pos
    · dsimp only
      rw [h.bank]
      exact h.rebank
  | whole h =>
    have hbank : ¬ s.bankedGt > 0 := by
      rw [h.bank]
      exact Nat.lt_irrefl 0
    refine .step rfl (.no hbank ?_)
    by_cases hnext : nextKind K = .greater
    · cases K with
      | nil => exact TokenKind.noConfusion hnext
      | cons l K =>
        rw [munch, if_pos ⟨rfl, hnext⟩] at h
        refine .decline h TokenKind.noConfusion TokenKind.noConfusion (.no Bool.false_ne_true ?_)
        refine .accept h TokenKind.noConfusion fun s1 hs1 => .yes rfl (.step rfl (.pure ⟨rfl, ?_⟩))
        rw [beq_iff_eq.2 hnext]
        exact .half hnext hs1.rebank
    · rw [munch_gt hnext] at h
      refine .accept h TokenKind.noConfusion fun s1 hs1 => .yes rfl (.pure ⟨rfl, ?_⟩)
      rw [beq_eq_false_iff_ne.2 hnext]
      exact .whole hs1

/-! ## Reading types -/

/-- With fewer than `M` lexemes ahead, a call of `parse_type` takes any legible type that ends before
what follows. -/
def TypesRead (inp : Input) (m : Mode) (M : Nat) (p : PM Ty) : Prop :=
  ∀ (type : TypeText) (K rest : List Lexeme) (s : PState), type.legible = true →
    type.stops (nextKind (K ++ rest)) = true → At inp (m.banked 0) (munch (type.halves ++ K) ++ rest) s →
    (munch (type.halves ++ K) ++ rest).length < M →
    Gives p s fun result s' => result.plain = type.tree ∧
      Amid inp m rest (nextKind K == .greater && type.run % 2 == 1) K s'

variable {M : Nat} {p : PM Ty}

theorem TypesRead.after {m' : Mode} {ls : List Lexeme} (h : TypesRead inp m M p) (hs : At inp m' ls s)
    (hM : ls.length ≤ M) : TypesRead inp m ls.length (p.after s.pos) := by
  intro type K rest s' hlegible hstops hs' hlt
  exact (h type K rest s' hlegible hstops hs' (Nat.lt_of_lt_of_le hlt hM)).after (hs.pos_lt hs' hlt)

/-- A type with nothing of its own around it. -/
theorem TypesRead.takes (h : TypesRead inp m M p) {type : TypeText} {k : TokenKind}
    (hlegible : type.legible = true) (hstops : type.stops k = true) :
    Takes inp (m.banked 0) M p (munch type.halves) k fun result => result.plain = type.tree := by
  intro ls s hs hM hk
  rw [← List.append_nil type.halves] at hs hM
  refine (h type [] ls s hlegible (hk ▸ hstops) hs hM).mono fun result s' hr => ⟨hr.1, hr.2.at⟩

/-- The kinds that end a list of arguments. -/
def endsArgs (k : TokenKind) : Bool := k == .greater || k == .greaterGreater || k == .eof

theorem At.argsClosed (hs : At inp m ls s) :
    inp.typeArgsClosed s = .ok (some (endsArgs (nextKind ls)), s) := by
  obtain ⟨l, ls, rfl⟩ := List.exists_cons_of_ne_nil hs.stream.ne_nil
  obtain ⟨t, ht, hlex, -⟩ := hs.token
  rw [Input.typeArgsClosed, bind_run, hs.check TokenKind.noConfusion]
  simp only
  rw [bind_run, hs.check TokenKind.noConfusion]
  simp only
  rw [bind_run, atEnd_run ht]
  subst hlex
  rfl

theorem startsType_continues {l : Lexeme} (h : startsType l.kind = true) :
    endsArgs l.kind = false := by
  rw [endsArgs, beq_eq_false_iff_ne.2 (startsType_ne h rfl), beq_eq_false_iff_ne.2
    (startsType_ne h rfl), beq_eq_false_iff_ne.2 (startsType_ne h rfl)]
  rfl

/-- The list is not closed before a type. -/
theorem Gives.argsOpen {β : Type} {f : Bool → PM β} {R : β → PState → Prop} {type : TypeText}
    {types : List TypeText} {trailing : Bool} {ls : List Lexeme}
    (hs : At inp m (munch (TypeText.listHalves trailing (type :: types) ++ ls) ++ rest) s)
    (hf : Gives (f false) s R) : Gives (inp.typeArgsClosed >>= f) s R := by
  obtain ⟨l, tl, hl, hstart⟩ := halves_begin type
  have hgt : l.kind ≠ .greater := startsType_ne hstart rfl
  rw [TypeText.listHalves, hl] at hs
  simp only [List.cons_append] at hs
  rw [munch_cons hgt, List.cons_append] at hs
  have hclosed := hs.argsClosed
  rw [nextKind_cons, startsType_continues hstart] at hclosed
  exact .step hclosed hf

theorem listHalves_one (type : TypeText) : TypeText.listHalves false [type] = type.halves := by
  change type.halves ++ [] ++ [] = type.halves
  rw [List.append_nil, List.append_nil]

theorem listHalves_more (trailing : Bool) (type next : TypeText) (types : List TypeText) :
    TypeText.listHalves trailing (type :: next :: types) =
      type.halves ++ symbol .comma :: TypeText.listHalves trailing (next :: types) :=
  List.append_assoc _ _ _

/-- The list of arguments. Only the last one can end in the middle of a `>>`. -/
theorem argsRounds_give (hp : TypesRead inp m M p) {args : List TypeText} (hargs : args ≠ [])
    (hlegible : TypeText.listLegible false args = true) {acc : List Ty} {fuel : Nat}
    (hs : At inp (m.banked 0) (munch (TypeText.listHalves false args ++ gt :: K) ++ rest) s)
    (hM : (munch (TypeText.listHalves false args ++ gt :: K) ++ rest).length < M)
    (hfuel : (munch (TypeText.listHalves false args ++ gt :: K) ++ rest).length < fuel)
    (hnext : TypeText.lastRun args % 2 = 1 → nextKind (K ++ rest) ≠ .comma) :
    Gives (loopM (inp.listRound inp.typeArgsClosed p) fuel acc) s fun result s' =>
      result.map Ty.plain = acc.map Ty.plain ++ TypeText.trees args ∧
        Amid inp m rest (TypeText.lastRun args % 2 == 1) (gt :: K) s' := by
  induction args generalizing s acc fuel with
  | nil => exact absurd rfl hargs
  | cons type types ih =>
    obtain ⟨fuel, rfl⟩ := Nat.exists_eq_succ_of_ne_zero (Nat.ne_zero_of_lt hfuel)
    rw [TypeText.listLegible, Bool.and_eq_true, Bool.and_eq_true] at hlegible
    cases types with
    | nil =>
      rw [listHalves_one] at hs hM
      refine .stop (.bind (hp type (gt :: K) rest s hlegible.1.1 ?_ hs hM) fun result s1 h => ?_)
      · exact type.stops_of_ne TokenKind.noConfusion TokenKind.noConfusion TokenKind.noConfusion
      · have hamid : Amid inp m rest (type.run % 2 == 1) (gt :: K) s1 := h.2
        have hlast : TypeText.lastRun [type] = type.run := if_pos rfl
        rw [hlast] at hnext
        have hcomma : inp.accept .comma s1 = .ok (some false, s1) := by
          generalize hhalf : (type.run % 2 == 1) = half at hamid
          cases hamid with
          | whole hs1 =>
            refine hs1.accept_no TokenKind.noConfusion ?_
            by_cases hK : nextKind K = .greater
            · cases K with
              | nil => exact TokenKind.noConfusion
              | cons l K =>
                rw [munch, if_pos ⟨rfl, hK⟩]
                exact TokenKind.noConfusion
            · rw [munch_gt hK]
              exact TokenKind.noConfusion
          | half _ hs1 =>
            exact hs1.accept_no TokenKind.noConfusion
              (nextKind_munch_ne TokenKind.noConfusion (hnext (beq_iff_eq.1 hhalf)))
        refine .step hcomma (.no Bool.false_ne_true (.pure ⟨rfl, ?_, ?_⟩))
        · rw [List.map_append, List.map_singleton, h.1]
          rfl
        · rw [hlast]
          exact hamid
    | cons next types =>
      have hcomma : (symbol .comma).kind ≠ .greater := TokenKind.noConfusion
      rw [listHalves_more, List.append_assoc, List.cons_append, munch_append hcomma,
        List.append_assoc, List.cons_append] at hs hM hfuel
      have hsteals : type.steals = false := by
        simpa using hlegible.1.2
      refine .round (.bind (hp.takes hlegible.1.1 (TypeText.stops_comma hsteals) _ s hs hM rfl)
        fun result s1 h => ?_)
      refine .accept h.2 TokenKind.noConfusion fun s2 (hs2 : At inp (m.banked 0)
        (munch (TypeText.listHalves false (next :: types) ++ gt :: K) ++ rest) s2) => .yes rfl ?_
      have hlt : (munch (TypeText.listHalves false (next :: types) ++ gt :: K) ++ rest).length <
          (munch type.halves ++ symbol .comma ::
            (munch (TypeText.listHalves false (next :: types) ++ gt :: K) ++ rest)).length := by
        rw [@List.length_append _ (munch type.halves), List.length_cons]
        omega
      refine .argsOpen hs2 (.no Bool.false_ne_true (.pure ⟨rfl, hs.pos_lt hs2 hlt, ?_⟩))
      refine (ih (List.cons_ne_nil next types) hlegible.2 hs2 (Nat.lt_trans hlt hM)
        (Nat.lt_of_lt_of_le hlt (Nat.le_of_lt_succ hfuel)) hnext).mono
        fun result' s3 h3 => ⟨?_, h3.2⟩
      rw [h3.1, List.map_append, List.map_singleton, h.1, List.append_assoc]
      rfl

theorem munch_halves_begin (type : TypeText) :
    ∃ l ls, munch type.halves = l :: ls ∧ startsType l.kind = true := by
  obtain ⟨l, ls, hl, hstart⟩ := halves_begin type
  rw [hl, munch_cons (startsType_ne hstart rfl)]
  exact ⟨l, munch ls, rfl, hstart⟩

theorem munch_halves_begins (type : TypeText) : Begins .rParen (munch type.halves) := by
  obtain ⟨l, ls, hl, hstart⟩ := munch_halves_begin type
  exact ⟨l, ls, hl, startsType_ne hstart rfl, startsType_ne hstart rfl⟩

/-- Unit and tuples. -/
theorem parseParenType_gives (hp : TypesRead inp m M p) {elements : List TypeText} {trailing : Bool}
    {mark : Nat} (hmark : mark < inp.count)
    (hlegible : (TypeText.tuple elements trailing).legible = true)
    (hs : At inp (m.banked 0) (munch (TypeText.listHalves (trailing || elements.length == 1) elements
      ++ symbol .rParen :: K) ++ rest) s)
    (hM : (munch (TypeText.listHalves (trailing || elements.length == 1) elements
      ++ symbol .rParen :: K) ++ rest).length < M) :
    Gives (inp.parseParenType mark p) s fun result s' =>
      result.plain = (TypeText.tuple elements trailing).tree ∧ Amid inp m rest false K s' := by
  have hparen : (symbol .rParen).kind ≠ .greater := TokenKind.noConfusion
  rw [munch_listHalves hparen, List.append_assoc, List.cons_append] at hs hM
  rw [TypeText.legible] at hlegible
  generalize htr : (trailing || elements.length == 1) = tr at hs hM hlegible
  cases elements with
  | nil =>
    refine .accept hs TokenKind.noConfusion fun s1 hs1 => .yes rfl ?_
    exact .spanned hmark fun span => ⟨rfl, .whole hs1⟩
  | cons first elements =>
    have hcomma : (elements.isEmpty && !tr) = false := by
      subst htr
      cases elements with
      | nil => rw [List.length_singleton, beq_self_eq_true, Bool.or_true]; rfl
      | cons => rfl
    rw [TypeText.listLegible, hcomma, Bool.and_eq_true, Bool.and_eq_true, Bool.false_or,
      Bool.not_eq_true'] at hlegible
    rw [List.map_cons, commas, List.isEmpty_map, hcomma, if_neg Bool.false_ne_true,
      List.append_assoc, List.append_assoc] at hs hM
    obtain ⟨l, tl, hl, hstart⟩ := munch_halves_begin first
    have hne : nextKind (munch first.halves ++ ([symbol .comma] ++ (commas tr
        (elements.map fun type => munch type.halves) ++ symbol .rParen :: (munch K ++ rest)))) ≠
        .rParen := by
      rw [hl]
      exact startsType_ne hstart rfl
    refine .decline hs TokenKind.noConfusion hne (.no Bool.false_ne_true ?_)
    refine .bind (hp.takes hlegible.1.1 (TypeText.stops_comma hlegible.1.2) _ s hs hM rfl)
      fun result s1 h => ?_
    refine .accept h.2 TokenKind.noConfusion fun s2 (hs2 : At inp (m.banked 0) (commas tr
      (elements.map fun type => munch type.halves) ++ symbol .rParen :: (munch K ++ rest)) s2) =>
      .yes rfl ?_
    have hlist : Takes inp (m.banked 0) M (inp.commaRest .rParen p [result])
        (commas tr (elements.map fun type => munch type.halves)) .rParen
        fun as => as.map Ty.plain = [result].map Ty.plain ++ elements.map TypeText.tree := by
      refine Takes.commaRest TokenKind.noConfusion TokenKind.noConfusion
        (fun type _ => munch_halves_begins type) ?_ [result]
      exact (listLegible_followed TokenKind.noConfusion TokenKind.noConfusion TokenKind.noConfusion
        hlegible.2).imp fun type k h => hp.takes h.1 h.2
    have hlt : (commas tr (elements.map fun type => munch type.halves) ++
        symbol .rParen :: (munch K ++ rest)).length < M := by
      simp only [List.length_append] at hM ⊢
      omega
    refine .bind (hlist _ s2 hs2 hlt rfl) fun results s3 h3 => ?_
    refine .expect h3.2 TokenKind.noConfusion fun s4 hs4 => ?_
    refine .spanned hmark fun span => ⟨?_, .whole hs4⟩
    rw [Ty.plain, Ty.plainAll_eq, h3.1, TypeText.tree, List.isEmpty_cons, if_neg Bool.false_ne_true,
      trees_eq, List.map_singleton, h.1]
    rfl

/-- A path, with or without arguments. -/
theorem parsePathType_gives (hp : TypesRead inp m M p) {path : PathText} {args : List TypeText}
    {mark : Nat} (hmark : mark < inp.count) (hlegible : (TypeText.path path args).legible = true)
    (hstops : (TypeText.path path args).stops (nextKind (K ++ rest)) = true)
    (hs : At inp (m.banked 0) (munch ((TypeText.path path args).halves ++ K) ++ rest) s)
    (hM : (munch ((TypeText.path path args).halves ++ K) ++ rest).length ≤ M) :
    Gives (inp.parsePathType mark p) s fun result s' =>
      result.plain = (TypeText.path path args).tree ∧
        Amid inp m rest (nextKind K == .greater && (TypeText.path path args).run % 2 == 1) K s' := by
  rw [TypeText.halves, List.append_assoc, munch_path, List.append_assoc] at hs hM
  rw [TypeText.stops, TypeText.bare, Bool.and_eq_true, Bool.not_eq_true', Bool.not_eq_true'] at hstops
  rw [TypeText.legible] at hlegible
  cases args with
  | nil =>
    rw [List.isEmpty_nil, Bool.true_and, Bool.or_eq_false_iff, beq_eq_false_iff_ne,
      beq_eq_false_iff_ne] at hstops
    rw [List.isEmpty_nil, if_pos rfl, List.nil_append] at hs
    refine .bind (parsePath_gives hs (nextKind_munch_ne TokenKind.noConfusion hstops.1.1))
      fun result s1 h => ?_
    refine .decline h.2 TokenKind.noConfusion (nextKind_munch_ne TokenKind.noConfusion hstops.1.2) ?_
    refine .no Bool.false_ne_true (.spanned hmark fun span => ⟨?_, ?_⟩)
    · rw [Ty.plain, h.1]
      rfl
    · have hhalf : (nextKind K == .greater && (TypeText.path path []).run % 2 == 1) = false :=
        Bool.and_false _
      rw [hhalf]
      exact .whole h.2
  | cons arg args =>
    have hless : (symbol .less).kind ≠ .greater := TokenKind.noConfusion
    rw [List.isEmpty_cons, if_neg Bool.false_ne_true, List.cons_append, munch_cons hless,
      List.append_assoc, List.singleton_append] at hs hM
    refine .bind (parsePath_gives hs TokenKind.noConfusion) fun result s1 h => ?_
    refine .accept h.2 TokenKind.noConfusion fun s2 (hs2 : At inp (m.banked 0)
      (munch (TypeText.listHalves false (arg :: args) ++ gt :: K) ++ rest) s2) => .yes rfl ?_
    have hrun : (TypeText.path path (arg :: args)).run = TypeText.lastRun (arg :: args) + 1 := rfl
    have hnext : TypeText.lastRun (arg :: args) % 2 = 1 → nextKind (K ++ rest) ≠ .comma := by
      intro hodd hcomma
      have hsteals : (TypeText.path path (arg :: args)).steals = true := by
        rw [TypeText.steals, hrun, Bool.and_eq_true, bne_iff_ne, beq_iff_eq]
        omega
      rw [hsteals, hcomma] at hstops
      exact Bool.noConfusion hstops.2
    have hlt : (munch (TypeText.listHalves false (arg :: args) ++ gt :: K) ++ rest).length < M := by
      refine Nat.lt_of_lt_of_le ?_ hM
      rw [@List.length_append _ path.lexemes, List.cons_append, List.length_cons]
      omega
    have hlist : Gives (inp.commaList inp.typeArgsClosed p) s2 fun results s' =>
        results.map Ty.plain = TypeText.trees (arg :: args) ∧
          Amid inp m rest (TypeText.lastRun (arg :: args) % 2 == 1) (gt :: K) s' := by
      rw [Input.commaList_eq]
      exact .argsOpen hs2 (.no Bool.false_ne_true (argsRounds_give hp (List.cons_ne_nil arg args)
        hlegible hs2 hlt hs2.lt_fuel hnext))
    refine .bind hlist fun results s3 h3 => ?_
    refine .bind h3.2.consumeGt fun r s4 h4 => .yes h4.1 (.spanned hmark fun span => ⟨?_, ?_⟩)
    · rw [Ty.plain, h.1, Ty.plainAll_eq, h3.1]
      rfl
    · have hhalf : (!(TypeText.lastRun (arg :: args) % 2 == 1) && nextKind K == .greater) =
          (nextKind K == .greater && (TypeText.path path (arg :: args)).run % 2 == 1) := by
        rw [hrun, Bool.and_comm]
        congr 1
        grind
      rw [← hhalf]
      exact h4.2

/-- What `parse_type` does by the kind of its first token. -/
def Input.typeBranch (inp : Input) (mark : Nat) (type : PM Ty) (kind : TokenKind) : PM Ty := do
  match kind with
  | .lParen =>
    inp.advance
    inp.parseParenType mark type
  | .bang =>
    inp.advance
    return .never (← inp.spanFrom mark)
  | .amp =>
    inp.advance
    let isMut ← inp.accept .mut
    let inner ← type
    return .ref (← inp.spanFrom mark) isMut inner
  | .str =>
    inp.advance
    return .str (← inp.spanFrom mark)
  | kind =>
    match Input.primitiveKind kind with
    | some primitive =>
      inp.advance
      return .primitive (← inp.spanFrom mark) primitive
    | none => inp.parsePathType mark type

theorem Input.parseTypeWith_eq (type : PM Ty) : inp.parseTypeWith type =
    PM.here >>= fun mark => inp.peek >>= fun t => inp.typeBranch mark (type.after mark) t.kind := rfl

theorem typeLevel_reads : ∀ depth : Nat, TypesRead inp m (depth + 1) (inp.typeLevel depth) := by
  intro depth
  induction depth with
  | zero =>
    intro type K rest s _ _ hs hM
    have := List.length_pos_iff.2 hs.stream.ne_nil
    omega
  | succ depth ih =>
    intro type K rest s hlegible hstops hs hM
    have hmark := hs.lt
    have hp := ih.after hs (Nat.le_of_lt_succ hM)
    rw [Input.typeLevel, Input.parseTypeWith_eq]
    refine .here ?_
    cases type with
    | primitive kind =>
      have hkind : (symbol (primitiveToken kind)).kind ≠ .greater := by
        cases kind <;> exact TokenKind.noConfusion
      rw [TypeText.halves, List.singleton_append, munch_cons hkind] at hs
      refine .peek hs fun t ht => ?_
      rw [show t.kind = primitiveToken kind from congrArg Lexeme.kind ht]
      have hhalf : (nextKind K == .greater && (TypeText.primitive kind).run % 2 == 1) = false :=
        Bool.and_false _
      rw [hhalf]
      cases kind <;> exact .advance hs TokenKind.noConfusion fun s1 hs1 =>
        .spanned hmark fun span => ⟨rfl, .whole hs1⟩
    | never =>
      rw [TypeText.halves, List.singleton_append, munch_cons TokenKind.noConfusion] at hs
      refine .peek hs fun t ht => ?_
      rw [show t.kind = .bang from congrArg Lexeme.kind ht]
      refine .advance hs TokenKind.noConfusion fun s1 hs1 => .spanned hmark fun span => ⟨rfl, ?_⟩
      have hhalf : (nextKind K == .greater && TypeText.never.run % 2 == 1) = false := Bool.and_false _
      rw [hhalf]
      exact .whole hs1
    | tuple elements trailing =>
      rw [TypeText.halves, List.cons_append, munch_cons TokenKind.noConfusion, List.append_assoc,
        List.singleton_append] at hs hp
      refine .peek hs fun t ht => ?_
      rw [show t.kind = .lParen from congrArg Lexeme.kind ht]
      refine .advance hs TokenKind.noConfusion fun s1 hs1 => ?_
      have hhalf : (nextKind K == .greater && (TypeText.tuple elements trailing).run % 2 == 1) =
        false := Bool.and_false _
      rw [hhalf]
      exact parseParenType_gives hp hmark hlegible hs1 (Nat.lt_succ_self _)
    | path path args =>
      have htext : munch ((TypeText.path path args).halves ++ K) ++ rest = segment path.first ::
          (munch ((TypeText.path path args).halves ++ K) ++ rest).tail := by
        rw [TypeText.halves, List.append_assoc, munch_path]
        rfl
      refine .peek (htext ▸ hs) fun t ht => ?_
      rw [show t.kind = segmentKind path.first from congrArg Lexeme.kind ht]
      have hpath := parsePathType_gives hp hmark hlegible hstops hs (Nat.le_refl _)
      rcases segmentKind_cases path.first with h | h | h | h | h <;> rw [h] <;> exact hpath
    | ref isMut inner =>
      rw [TypeText.halves, List.cons_append, munch_cons TokenKind.noConfusion] at hs hp
      refine .peek hs fun t ht => ?_
      rw [show t.kind = .amp from congrArg Lexeme.kind ht]
      refine .advance hs TokenKind.noConfusion fun s1 (hs1 : At inp (m.banked 0)
        (munch (mutText isMut ++ inner.halves ++ K) ++ rest) s1) => ?_
      rw [List.append_assoc, munch_mut, List.append_assoc] at hs1
      have hmut : nextKind (munch (inner.halves ++ K) ++ rest) ≠ .mut := by
        obtain ⟨l, tl, hl, hstart⟩ := halves_begin inner
        rw [hl, List.cons_append, munch_cons (startsType_ne hstart rfl)]
        exact startsType_ne hstart rfl
      refine .mut hs1 hmut fun s2 hs2 => ?_
      have hlt : (munch (inner.halves ++ K) ++ rest).length <
          (symbol .amp :: munch (mutText isMut ++ inner.halves ++ K) ++ rest).length := by
        rw [List.append_assoc, munch_mut]
        simp only [List.length_append, List.length_cons]
        omega
      refine .bind (hp inner K rest s2 hlegible hstops hs2 hlt) fun result s3 h => ?_
      exact .spanned hmark fun span => ⟨congrArg (Ty.ref default isMut) h.1, h.2⟩

theorem parseType_reads : TypesRead inp m inp.loopFuel inp.parseType := by
  intro type K rest s hlegible hstops hs _
  exact typeLevel_reads _ type K rest s hlegible hstops hs (Nat.lt_succ_of_lt hs.lt_fuel)

/-- A closed type is taken whole: nothing is banked before or after. -/
theorem parseClosedType_takes {type : TypeText} {k : TokenKind} (hm : m.bank = 0)
    (hlegible : type.legible = true) (hstops : type.stops k = true) :
    Takes inp m M inp.parseClosedType (munch type.halves) k fun result =>
      result.plain = type.tree := by
  intro ls s hs hM hk
  have hmode : m.banked 0 = m := by
    cases m
    exact congrArg (Mode.mk · _ _) hm.symm
  have htype := (parseType_reads (m := m)).takes hlegible hstops ls s (hmode ▸ hs) hs.lt_fuel hk
  rw [hmode] at htype
  refine .bind htype fun result s1 h => .step rfl (.no ?_ (.pure h))
  rw [h.2.bank, hm]
  exact Nat.lt_irrefl 0

end Alcy.Parser
