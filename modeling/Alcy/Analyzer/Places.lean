import Alcy.Analyzer.Reports
import Alcy.Parser.Paths

/-! # What is assigned to

`check_place` walks from an assignment's place down to the name at its root and takes several
silent ways out of it. A run that adds no error has passed the test of mutability at the root,
however long the chain of fields and indexes above it is.
-/
namespace Alcy.Parser
open Alcy.Ast
open PM

variable {inp : Input}

/-- The parser makes no path without a segment. -/
theorem parsePath_segments {path : Path} {s s' : PState}
    (h : inp.parsePath s = .ok (some path, s')) : path.segments ≠ [] := by
  obtain ⟨t, tokens, segments, -, -, -, hsegments, -⟩ := parsePath_some h
  rw [hsegments]
  exact List.cons_ne_nil _ _

end Alcy.Parser

namespace Alcy.Analyzer.Bodies
open Alcy.Ast Alcy.Diag Alcy.Ir Alcy.Analyzer.Types
open Alcy.Lib.Contracts (Ends Keeps bind_ok)

variable {p : Package}

/-! ## Values that are no locals -/

/-- From this state on the program finds no local, and where it finds nothing it says so. -/
def Announced (st : BodyState) (m : BodyM (Option PathValue)) : Prop :=
  Ends st m fun value u =>
    (value = none → errorCount st.check.bag < errorCount u.check.bag) ∧
      ∀ type, value ≠ some (.localVar type)

namespace Announced

variable {st : BodyState} {α : Type} {m : BodyM α} {k : α → BodyM (Option PathValue)}

theorem found {value : PathValue} (h : ∀ type, value ≠ .localVar type) :
    Announced st (pure (some value)) :=
  Ends.pure ⟨fun hnone => (nomatch hnone), fun type hv => h type (Option.some.inj hv)⟩

theorem after (hm : Keeps forward m) (hk : ∀ a u, Announced u (k a)) : Announced st (m >>= k) := by
  refine Ends.bind fun a u hrun => Ends.mono (hk a u) fun value v hv => ⟨fun hnone => ?_, hv.2⟩
  exact Nat.lt_of_le_of_lt (forward_errorCount hm hrun) (hv.1 hnone)

theorem unresolved {span : Span} {message : String} :
    Announced st (Bodies.unresolved span message) := by
  intro value u hrun
  obtain ⟨_, v, hreport, hrest⟩ := bind_ok.1 hrun
  cases hrest
  exact ⟨fun _ => report_errorCount hreport, fun _ h => nomatch h⟩

end Announced

theorem resolveBlessedCtor_ne {table : Table} {name : String} {value : PathValue}
    (h : resolveBlessedCtor table name = some value) (type : TypeIdx) : value ≠ .localVar type := by
  unfold resolveBlessedCtor at h
  split at h
  · obtain ⟨entry, -, rfl⟩ := Option.map_eq_some_iff.1 h
    exact fun h => nomatch h
  · cases h

theorem qualifiedCtor_ne {table : Table} {head member : String} {value : PathValue}
    (h : qualifiedCtor table head member = some value) (type : TypeIdx) :
    value ≠ .localVar type := by
  unfold qualifiedCtor at h
  split at h
  · exact resolveBlessedCtor_ne h type
  · cases h

theorem lookupValue_ne {modules : Nat → CheckedModule} {module : Nat} {name : String}
    {value : PathValue} (h : lookupValue p modules module name = some value) (type : TypeIdx) :
    value ≠ .localVar type := by
  unfold lookupValue at h
  split at h
  · cases h
    exact fun h => nomatch h
  · obtain ⟨found, -, rfl⟩ := Option.map_eq_some_iff.1 h
    exact fun h => nomatch h

theorem variantValue_announced (found : VariantMatch) (st : BodyState) :
    Announced st (do return some (← variantValue p found)) := by
  unfold variantValue
  intro value u hrun
  obtain ⟨found', v, hvalue, hrest⟩ := bind_ok.1 hrun
  obtain ⟨type, w, -, hvalue⟩ := bind_ok.1 hvalue
  obtain ⟨variant, w', -, hvalue⟩ := bind_ok.1 hvalue
  cases hrest
  refine ⟨fun h => (nomatch h), fun type' h => ?_⟩
  cases h
  split at hvalue <;> cases hvalue

theorem resolveOther_announced (module : Nat) (path : Path) (name : String) (st : BodyState) :
    Announced st (resolveOther p module path name) := by
  refine .after (forwardRule.findVariant _ _ _) fun found u => ?_
  split
  · exact variantValue_announced _ _
  refine .after .get fun st' u' => ?_
  split
  · next hctor => exact .found (resolveBlessedCtor_ne hctor)
  split
  · exact .found fun _ h => nomatch h
  · exact .unresolved

theorem resolveInModule_announced (variants : Bool) (module : Nat) (path : Path) (member : String)
    (st : BodyState) : Announced st (resolveInModule p variants module path member) := by
  intro value u hrun
  obtain ⟨target, v, hwalk, hrest⟩ := bind_ok.1 hrun
  unfold walkPrefix at hwalk
  cases hwalked : walkModulePrefix p.tree module path "value" with
  | error message =>
    rw [hwalked] at hwalk
    obtain ⟨_, w, hreport, hnone⟩ := bind_ok.1 hwalk
    cases hnone
    cases hrest
    exact ⟨fun _ => report_errorCount hreport, fun _ h => nomatch h⟩
  | ok found =>
    rw [hwalked] at hwalk
    cases hwalk
    refine Announced.after .get (fun st' u' => ?_) value u hrest
    split
    · next hvalue => exact .found (lookupValue_ne hvalue)
    split
    · exact variantValue_announced _ _
    · exact .unresolved

theorem resolveMember_announced (module : Nat) (path : Path) (head member : String)
    (st : BodyState) : Announced st (resolveMember p module path head member) := by
  refine .after .get fun st' u => ?_
  dsimp only
  split
  · exact variantValue_announced _ _
  refine .after (forwardRule.assocFunction _ _) fun method u' => ?_
  split
  · exact .found fun _ h => nomatch h
  refine .after .get fun st'' u'' => ?_
  split
  · next hctor => exact .found (qualifiedCtor_ne hctor)
  · exact .unresolved

/-- A path that means a local is one name, and finding it changes nothing. -/
theorem resolveValuePath_local {module : Nat} {path : Path} (hsegments : path.segments ≠ [])
    (st : BodyState) :
    Ends st (resolveValuePath p module path) fun value u =>
      (value = none → errorCount st.check.bag < errorCount u.check.bag) ∧
        ∀ type, value = some (.localVar type) →
          u = st ∧ ∃ name, path.segments.map (·.name) = [name] := by
  have hother {m : BodyM (Option PathValue)} (hm : Announced st m) (names : List String) :
      Ends st m fun value u =>
        (value = none → errorCount st.check.bag < errorCount u.check.bag) ∧
          ∀ type, value = some (.localVar type) → u = st ∧ ∃ name, names = [name] :=
    Ends.mono hm fun _ _ hv => ⟨hv.1, fun type h => absurd h (hv.2 type)⟩
  have hnames : path.segments.map (·.name) ≠ [] := fun h => hsegments (List.map_eq_nil_iff.1 h)
  unfold resolveValuePath
  generalize path.segments.map (·.name) = names at hnames ⊢
  rcases names with _ | ⟨head, _ | ⟨member, _ | ⟨third, rest⟩⟩⟩
  · exact absurd rfl hnames
  · refine .bind (.get ?_)
    split
    · exact .pure ⟨fun h => (nomatch h), fun _ _ => ⟨rfl, head, rfl⟩⟩
    split
    · next hvalue => exact hother (.found (lookupValue_ne hvalue)) _
    · exact hother (resolveOther_announced _ _ _ _) _
  · dsimp only
    split
    · exact hother (resolveInModule_announced _ _ _ _ _) _
    · exact hother (resolveMember_announced _ _ _ _ _) _
  · exact hother (resolveInModule_announced _ _ _ _ _) _

/-! ## The root of a place -/

/-- What is left when the fields and indexes are taken off. -/
def placeRoot : Expr → Expr
  | .field _ receiver _ => placeRoot receiver
  | .index _ receiver _ => placeRoot receiver
  | e => e

/-- A single name, of a local that was declared with `mut`. -/
def MutableRoot (context : Context) (place : Expr) : Prop :=
  ∃ span path name entry, placeRoot place = .path span path ∧
    path.segments.map (·.name) = [name] ∧ context.lookupLocal name = some entry ∧
    entry.isMut = true

/-- The root is no path without a segment; the parser makes none. -/
def RootNamed (place : Expr) : Prop :=
  ∀ span path, placeRoot place = .path span path → path.segments ≠ []

theorem checkPlacePath_root {module : Nat} {span : Span} {path : Path} {st st' : BodyState}
    {type : TypeIdx} (hsegments : path.segments ≠ [])
    (h : checkPlacePath p module path span st = .ok (type, st'))
    (hquiet : errorCount st'.check.bag = errorCount st.check.bag) :
    ∃ name entry, path.segments.map (·.name) = [name] ∧
      st.context.lookupLocal name = some entry ∧ entry.isMut = true := by
  obtain ⟨value, u, hresolve, hrest⟩ := bind_ok.1 h
  obtain ⟨hnone, hlocal⟩ := resolveValuePath_local hsegments _ _ _ hresolve
  have hu := forward_errorCount (forwardRule.resolveValuePath _ _) hresolve
  rcases value with _ | value
  · have hst' := forward_errorCount forwardRule.errorType hrest
    have hfewer := hnone rfl
    omega
  cases value with
  | localVar type' =>
    obtain ⟨rfl, name, hname⟩ := hlocal _ rfl
    obtain ⟨_, _, hget, hrest⟩ := bind_ok.1 hrest
    cases hget
    obtain ⟨segment, hsegment, rfl⟩ := List.map_eq_singleton_iff.1 hname
    rw [hsegment, List.getLast?_singleton, Option.bind_some] at hrest
    cases hentry : u.context.lookupLocal segment.name with
    | none =>
      rw [hentry] at hrest
      have hmore := reject_errorCount hrest
      omega
    | some entry =>
      rw [hentry] at hrest
      dsimp only at hrest
      by_cases hmut : entry.isMut = true
      · exact ⟨_, entry, hname, hentry, hmut⟩
      · rw [if_neg hmut] at hrest
        have hmore := reject_errorCount hrest
        omega
  | _ =>
    have hmore := reject_errorCount hrest
    omega

/-- **A place that is checked without an error has a mutable root**, by induction on the chain. -/
theorem checkPlace_root {module : Nat} : ∀ (place : Expr) {st st' : BodyState} {type : TypeIdx},
    RootNamed place → checkPlace p module place st = .ok (type, st') →
    errorCount st'.check.bag = errorCount st.check.bag → MutableRoot st.context place
  | .path span path, st, st', type, hnamed, h, hquiet => by
    unfold checkPlace at h
    obtain ⟨name, entry, hname, hentry, hmut⟩ := checkPlacePath_root (hnamed _ _ rfl) h hquiet
    exact ⟨span, path, name, entry, rfl, hname, hentry, hmut⟩
  | .field span receiver name, st, st', type, hnamed, h, hquiet => by
    unfold checkPlace at h
    obtain ⟨type', u, hplace, hrest⟩ := bind_ok.1 h
    have hrest' : Keeps forward (checkPlaceField (pure type')
        ⟨receiver, checkExpr p module receiver⟩ name span) :=
      forwardRule.checkPlaceField (.pure _) (fun _ => forwardRule.checkExpr module receiver _) _ _
    have hu := forward_errorCount (forwardRule.checkPlace module receiver) hplace
    have hst' := forward_errorCount hrest' hrest
    exact checkPlace_root receiver hnamed hplace (by omega)
  | .index span receiver index, st, st', type, hnamed, h, hquiet => by
    unfold checkPlace at h
    obtain ⟨type', u, hplace, hrest⟩ := bind_ok.1 h
    have hrest' : Keeps forward (checkPlaceIndex (pure type')
        ⟨receiver, checkExpr p module receiver⟩ ⟨index, checkExpr p module index⟩ span) :=
      forwardRule.checkPlaceIndex (.pure _) (fun _ => forwardRule.checkExpr module receiver _)
        (fun _ => forwardRule.checkExpr module index _) _
    have hu := forward_errorCount (forwardRule.checkPlace module receiver) hplace
    have hst' := forward_errorCount hrest' hrest
    exact checkPlace_root receiver hnamed hplace (by omega)
  | .literal .., _, _, _, _, h, hquiet | .struct .., _, _, _, _, h, hquiet
  | .tuple .., _, _, _, _, h, hquiet | .unary .., _, _, _, _, h, hquiet
  | .borrow .., _, _, _, _, h, hquiet | .binary .., _, _, _, _, h, hquiet
  | .cast .., _, _, _, _, h, hquiet | .call .., _, _, _, _, h, hquiet
  | .methodCall .., _, _, _, _, h, hquiet | .question .., _, _, _, _, h, hquiet
  | .ifExpr .., _, _, _, _, h, hquiet | .matchExpr .., _, _, _, _, h, hquiet
  | .loop .., _, _, _, _, h, hquiet | .whileExpr .., _, _, _, _, h, hquiet
  | .block .., _, _, _, _, h, hquiet | .returnExpr .., _, _, _, _, h, hquiet
  | .breakExpr .., _, _, _, _, h, hquiet | .continueExpr .., _, _, _, _, h, hquiet
  | .range .., _, _, _, _, h, hquiet => by
    unfold checkPlace at h
    have := reject_errorCount h
    omega

/-- **Only mutable locals are assigned.** A reassignment that adds no error, plain or compound, has
at the root of its place a single name, of a local that was declared with `mut`. -/
theorem reassign_mutableRoot {module : Nat} {span : Span} {place value : Expr} {compound : Bool}
    {op : BinaryOp} {st st' : BodyState} (hnamed : RootNamed place)
    (h : checkStmt p module (.reassign span place compound op value) st = .ok ((), st'))
    (hquiet : errorCount st'.check.bag = errorCount st.check.bag) : MutableRoot st.context place := by
  unfold checkStmt at h
  obtain ⟨type, u, hplace, hrest⟩ := bind_ok.1 h
  have hrest' : Keeps forward
      (checkReassign (pure type) compound ⟨value, checkExpr p module value⟩ span) :=
    forwardRule.checkReassign (.pure _) _ (fun _ => forwardRule.checkExpr module value _) _
  have hu := forward_errorCount (forwardRule.checkPlace module place) hplace
  have hst' := forward_errorCount hrest' hrest
  exact checkPlace_root place hnamed hplace (by omega)

/-- A body with one local, a number. -/
def withLocal (isMut : Bool) : BodyState :=
  { BodyState.start with
    context := ⟨[[⟨"x", primitiveIdx .i32, isMut⟩]], 0, true, primitiveIdx .void⟩ }

/-- `x = 1` -/
def assignOne : Stmt :=
  .reassign default (.path default (pathTo ["x"])) false .add
    (.literal default ⟨.integer, default, "1"⟩)

/-- An immutable local is not assigned. -/
example : reported (checkStmt (onlyRoot []) 0 assignOne (withLocal false)) =
    some [(kAnalyzerBadAssignment, "cannot assign to an immutable binding")] := by
  decide +kernel

theorem assignOne_mutableRoot : ∃ st',
    checkStmt (onlyRoot []) 0 assignOne (withLocal true) = .ok ((), st') ∧
      MutableRoot (withLocal true).context (.path default (pathTo ["x"])) := by
  have hreported : reported (checkStmt (onlyRoot []) 0 assignOne (withLocal true)) = some [] := by
    decide +kernel
  obtain ⟨_, st', hrun, hbag⟩ := run_of_toOption hreported
  have hquiet : errorCount st'.check.bag = errorCount (withLocal true).check.bag := by
    rw [List.map_eq_nil_iff.1 hbag]
    rfl
  refine ⟨st', hrun, reassign_mutableRoot ?_ hrun hquiet⟩
  intro span path hroot
  cases hroot
  decide

end Alcy.Analyzer.Bodies
