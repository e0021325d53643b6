import Alcy.Analyzer.OrPatterns
import Alcy.Analyzer.PatternSteps

/-! # Refutable patterns

`bind_pattern` answers whether a pattern is refutable. For a variant with a payload it begins with
`true` and keeps that only as long as every part of the payload is refutable, so that `Some(x)`
counts as irrefutable.
-/
namespace Alcy.Analyzer.Bodies
open Alcy.Ast Alcy.Diag Alcy.Ir Alcy.Analyzer.Types
open Alcy.Lib.Contracts (Ends Keeps bind_ok bind_of_ok)

variable {p : Package}

/-! ## Refutable by their shape -/

mutual

/-- A pattern that is refutable whatever the type is called refutable. -/
theorem bindPattern_refutable (module : Nat) : ∀ (pattern : Pattern) (type : TypeIdx)
    (st : BodyState), Silently st (bindPattern p module pattern type) fun refutable _ =>
      refutableShape false pattern = true → refutable = true
  | .wildcard _, _, _ => by
    unfold bindPattern refutableShape
    exact .pure (by simp)
  | .ident _ name, type, _ => by
    unfold bindPattern refutableShape
    exact .after (forwardRule.declare _) fun _ _ _ => .pure (by simp)
  | .mutIdent _ name, type, _ => by
    unfold bindPattern refutableShape
    exact .after (forwardRule.declare _) fun _ _ _ => .pure (by simp)
  | .literal _ value, type, st => by
    unfold bindPattern
    exact .after (forwardRule.checkLiteral _ _) fun _ _ _ => .pure fun _ => rfl
  | .tuple span (some path) elements, type, st => by
    unfold bindPattern refutableShape
    refine .after (forwardRule.variantPattern _ _ _ _ _) fun payloads u _ => ?_
    split
    · exact .after (forwardRule.bindErrorIdents _) fun _ _ _ => .pure fun _ => rfl
    · refine (bindPayload_refutable module elements _ true u).mono fun _ _ hr h => hr ⟨rfl, ?_⟩
      rwa [Bool.false_or] at h
  | .tuple span none elements, type, st => by
    refine .of_ends (forwardRule.bindPattern _ _ _) fun _ _ _ h => ?_
    unfold refutableShape at h
    cases h
  | .struct span path fields, type, st => by
    unfold bindPattern refutableShape
    rw [Bool.false_or, Bool.and_eq_true, Bool.not_eq_true', List.isEmpty_eq_false_iff]
    refine (structPattern_isSome module span path type st).bind fun found u _ => ?_
    split
    · refine .after (forwardRule.bindErrorIdents _) fun _ _ _ => .pure fun hsome h => ?_
      cases hsome h.1
    · exact (bindFields_refutable module _ _ fields false u).mono fun _ _ hr _ h => hr (.inr h.2)
  | .ref span isMut inner, type, st => by
    unfold bindPattern refutableShape
    refine (refPattern_silently span isMut type st).bind fun found u _ => ?_
    split
    · refine .after (forwardRule.bindErrorIdents _) fun _ _ _ => .pure fun hsome => ?_
      obtain ⟨pointee, hfound, -⟩ := hsome
      cases hfound
    · exact (bindPattern_refutable module inner _ u).mono fun _ _ hr _ => hr
  | .or _ [], _, _ => by
    unfold bindPattern refutableShape anyRefutable
    exact .pure (by simp)
  | .or _ (first :: rest), type, st => by
    unfold bindPattern refutableShape anyRefutable
    refine (bindPattern_refutable module first type st).bind fun part u _ => ?_
    refine .after forwardRule.innermost fun _ v _ => ?_
    refine (bindAlternatives_refutable module type rest part v _).mono fun _ _ hr hpart h => ?_
    exact hr (((Bool.or_eq_true _ _).mp h).imp hpart id)

theorem bindPayload_refutable (module : Nat) : ∀ (patterns : List Pattern) (types : List TypeIdx)
    (refutable : Bool) (st : BodyState),
      Silently st (bindPayload p module patterns types refutable) fun r _ =>
        refutable = true ∧ allRefutable false patterns = true → r = true
  | [], _, _, st => by
    unfold bindPayload
    exact .pure (·.1)
  | _ :: _, [], _, st => by
    unfold bindPayload
    exact .pure (·.1)
  | pattern :: rest, type :: types, refutable, st => by
    unfold bindPayload allRefutable
    refine (bindPattern_refutable module pattern type st).bind fun part u _ => ?_
    refine (bindPayload_refutable module rest types (part && refutable) u).mono fun r _ hr hpart h => ?_
    rw [Bool.and_eq_true] at h
    exact hr ⟨by rw [hpart h.2.1, h.1]; rfl, h.2.2⟩

theorem bindFields_refutable (module : Nat) (decl : StructItem) (types : IdxRange) :
    ∀ (fields : List (Ident × Pattern)) (refutable : Bool) (st : BodyState),
      Silently st (bindFields p module decl types fields refutable) fun r _ =>
        refutable = true ∨ anyField false fields = true → r = true
  | [], refutable, st => by
    unfold bindFields anyField
    exact .pure fun h => h.resolve_right (by simp)
  | (name, pattern) :: rest, refutable, st => by
    unfold bindFields anyField
    split
    · refine (report_silently (Q := fun _ _ => False)).bind fun _ u _ => ?_
      refine .after (forwardRule.bindErrorIdents _) fun _ v _ => ?_
      exact .of_ends (forwardRule.bindFields _ _ _ _ _) fun _ _ _ hfalse => hfalse.elim
    · refine .after (forwardRule.slot _ _) fun type u _ => ?_
      refine (bindPattern_refutable module pattern type u).bind fun part v _ => ?_
      refine (bindFields_refutable module decl types rest (part || refutable) v).mono
        fun r _ hr hpart h => hr ?_
      rw [Bool.or_eq_true] at h ⊢
      exact h.elim (fun h => .inl (.inr h)) fun h => h.imp (fun h => .inl (hpart h)) id

theorem bindAlternatives_refutable (module : Nat) (type : TypeIdx) :
    ∀ (alternatives : List Pattern) (refutable : Bool) (st : BodyState) (base : Nat),
      Silently st (bindAlternatives p module base type alternatives refutable) fun r _ =>
        refutable = true ∨ anyRefutable false alternatives = true → r = true
  | [], refutable, st, base => by
    unfold bindAlternatives anyRefutable
    exact .pure fun h => h.resolve_right (by simp)
  | pattern :: rest, refutable, st, base => by
    rw [bindAlternatives_cons]
    unfold anyRefutable
    refine (alternative_silently (fun _ _ _ _ hp => hp)
      (fun u _ => bindPattern_refutable module pattern type u) base pattern.span).bind
      fun part u _ => ?_
    refine (bindAlternatives_refutable module type rest (part || refutable) u base).mono
      fun r _ hr hpart h => hr ?_
    rw [Bool.or_eq_true] at h ⊢
    exact h.elim (fun h => .inl (.inr h)) fun h => h.imp (fun h => .inl (hpart h)) id

end

/-! ## Irrefutable by their shape -/

mutual

/-- A pattern whose shape leaves no doubt is called irrefutable. -/
theorem bindPattern_irrefutable (module : Nat) : ∀ (pattern : Pattern) (type : TypeIdx)
    (st : BodyState), Ends st (bindPattern p module pattern type) fun refutable _ =>
      refutableShape true pattern = false → refutable = false
  | .wildcard _, _, _ => by
    unfold bindPattern
    exact .pure fun _ => rfl
  | .ident _ name, type, _ => by
    unfold bindPattern
    exact .after fun _ _ => .pure fun _ => rfl
  | .mutIdent _ name, type, _ => by
    unfold bindPattern
    exact .after fun _ _ => .pure fun _ => rfl
  | .literal _ value, type, st => by
    unfold refutableShape
    exact fun _ _ _ h => by cases h
  | .tuple span (some path) elements, type, st => by
    unfold refutableShape
    exact fun _ _ _ h => by cases h
  | .tuple span none elements, type, st => by
    unfold bindPattern refutableShape
    refine .after fun types u => ?_
    split
    · exact .after fun _ _ => .pure fun _ => rfl
    · exact (bindElements_irrefutable module elements _ false u).mono fun _ _ hr h => hr rfl h
  | .struct span path fields, type, st => by
    unfold bindPattern refutableShape
    rw [Bool.true_or, Bool.true_and]
    refine .after fun found u => ?_
    split
    · exact .after fun _ _ => .pure fun _ => rfl
    · exact (bindFields_irrefutable module _ _ fields false u).mono fun _ _ hr h => hr rfl h
  | .ref span isMut inner, type, st => by
    unfold bindPattern refutableShape
    refine .after fun found u => ?_
    split
    · exact .after fun _ _ => .pure fun _ => rfl
    · exact bindPattern_irrefutable module inner _ u
  | .or _ [], _, _ => by
    unfold bindPattern
    exact .pure fun _ => rfl
  | .or _ (first :: rest), type, st => by
    unfold bindPattern refutableShape anyRefutable
    refine .bind ((bindPattern_irrefutable module first type st).mono fun part u hpart => ?_)
    refine .after fun _ v => ?_
    refine (bindAlternatives_irrefutable module type rest part v _).mono fun _ _ hr h => ?_
    rw [Bool.or_eq_false_iff] at h
    exact hr (hpart h.1) h.2

theorem bindElements_irrefutable (module : Nat) : ∀ (patterns : List Pattern)
    (types : List TypeIdx) (refutable : Bool) (st : BodyState),
      Ends st (bindElements p module patterns types refutable) fun r _ =>
        refutable = false → anyRefutable true patterns = false → r = false
  | [], _, _, st => by
    unfold bindElements
    exact .pure fun h _ => h
  | _ :: _, [], _, st => by
    unfold bindElements
    exact .pure fun h _ => h
  | pattern :: rest, type :: types, refutable, st => by
    unfold bindElements anyRefutable
    refine .bind ((bindPattern_irrefutable module pattern type st).mono fun part u hpart => ?_)
    refine (bindElements_irrefutable module rest types (part || refutable) u).mono
      fun r _ hr hacc h => ?_
    rw [Bool.or_eq_false_iff] at h
    exact hr (by rw [hpart h.1, hacc]; rfl) h.2

theorem bindFields_irrefutable (module : Nat) (decl : StructItem) (types : IdxRange) :
    ∀ (fields : List (Ident × Pattern)) (refutable : Bool) (st : BodyState),
      Ends st (bindFields p module decl types fields refutable) fun r _ =>
        refutable = false → anyField true fields = false → r = false
  | [], refutable, st => by
    unfold bindFields
    exact .pure fun h _ => h
  | (name, pattern) :: rest, refutable, st => by
    unfold bindFields anyField
    split
    · refine .after fun _ u => .after fun _ v => ?_
      refine (bindFields_irrefutable module decl types rest refutable v).mono fun r _ hr hacc h => ?_
      rw [Bool.or_eq_false_iff] at h
      exact hr hacc h.2
    · refine .after fun type u => ?_
      refine .bind ((bindPattern_irrefutable module pattern type u).mono fun part v hpart => ?_)
      refine (bindFields_irrefutable module decl types rest (part || refutable) v).mono
        fun r _ hr hacc h => ?_
      rw [Bool.or_eq_false_iff] at h
      exact hr (by rw [hpart h.1, hacc]; rfl) h.2

theorem bindAlternatives_irrefutable (module : Nat) (type : TypeIdx) :
    ∀ (alternatives : List Pattern) (refutable : Bool) (st : BodyState) (base : Nat),
      Ends st (bindAlternatives p module base type alternatives refutable) fun r _ =>
        refutable = false → anyRefutable true alternatives = false → r = false
  | [], refutable, st, base => by
    unfold bindAlternatives
    exact .pure fun h _ => h
  | pattern :: rest, refutable, st, base => by
    unfold bindAlternatives anyRefutable
    refine .after fun _ u => ?_
    refine .bind ((bindPattern_irrefutable module pattern type u).mono fun part v hpart => ?_)
    refine .after fun _ w => .after fun _ x => ?_
    refine (bindAlternatives_irrefutable module type rest (part || refutable) x base).mono
      fun r _ hr hacc h => ?_
    rw [Bool.or_eq_false_iff] at h
    exact hr (by rw [hpart h.1, hacc]; rfl) h.2

end

/-! ## Irrefutable patterns match -/

section Covered

variable {sc : Scalars} {st₀ : BodyState}

mutual

/-- **What is called irrefutable matches**, when the payloads of variants are refutable. -/
theorem bindPattern_covered (h₀ : Checking p st₀) (module : Nat) : ∀ (pattern : Pattern)
    (type : TypeIdx) (st : BodyState), Checking p st → Silently st (bindPattern p module pattern type)
      fun refutable u => payloadsRefutable pattern = true → refutable = false →
        Covered sc u.check.table.storage type (Matches sc p module st₀ pattern)
  | .wildcard _, _, _, _ => by
    unfold bindPattern
    exact .pure fun _ _ s _ v _ => by simp [Matches]
  | .ident _ name, type, _, _ => by
    unfold bindPattern
    exact .after (forwardRule.declare _) fun _ _ _ => .pure fun _ _ s _ v _ => by simp [Matches]
  | .mutIdent _ name, type, _, _ => by
    unfold bindPattern
    exact .after (forwardRule.declare _) fun _ _ _ => .pure fun _ _ s _ v _ => by simp [Matches]
  | .literal _ value, type, st, _ => by
    unfold bindPattern
    exact .after (forwardRule.checkLiteral _ _) fun _ _ _ => .pure fun _ h => by cases h
  | .tuple span (some path) elements, type, st, _ => by
    refine (bindPattern_refutable module (.tuple span (some path) elements) type st).mono
      fun refutable _ hr h hfalse => ?_
    unfold refutableShape at hr
    unfold payloadsRefutable at h
    rw [h, Bool.or_true, hfalse] at hr
    cases hr rfl
  | .tuple span none elements, type, st, h => by
    unfold bindPattern payloadsRefutable
    refine (tuplePattern_silently span elements.length type st).bind fun types u hu => ?_
    split
    · refine .after (forwardRule.bindErrorIdents _) fun _ v hv => .pure ?_
      exact fun htypes _ _ => ((htypes.1 rfl).covered).mono hv.storage
    · next types =>
      refine (bindElements_covered h₀ module elements types false u (h.onward hu)).onward.mono
        fun r v hr htypes hshape hfalse => ?_
      obtain ⟨hlength, htuple⟩ := htypes.2 types rfl
      refine (htuple.mono hr.1).covered fun s hs parts hparts => ?_
      unfold Matches
      exact ⟨parts, rfl, (hr.2 hlength hshape hfalse).2 s hs parts hparts⟩
  | .struct span path fields, type, st, h => by
    unfold bindPattern payloadsRefutable
    rw [Bool.and_eq_true, Bool.not_eq_true', List.isEmpty_eq_false_iff]
    refine ((structPattern_isSome module span path type st).both
      (structPattern_silently h h₀ module span path type)).bind fun found u hu => ?_
    split
    · refine .after (forwardRule.bindErrorIdents _) fun _ _ _ => .pure fun hfound hshape => ?_
      cases hfound.1 hshape.1
    · next decl types =>
      refine (bindFields_covered h₀ module decl types fields false u (h.onward hu)).onward.mono
        fun r v hr hfound hshape hfalse => ?_
      obtain ⟨hdecl, htype⟩ := hfound.2 decl types rfl
      rcases htype with hnone | hstruct
      · exact (hnone.mono hr.1).covered
      · refine (hstruct.mono hr.1).covered fun s hs parts hparts => ?_
        unfold Matches
        refine ⟨parts, rfl, ?_⟩
        rw [hdecl]
        exact (hr.2 hshape.2 hfalse).2 s hs parts hparts
  | .ref span isMut inner, type, st, h => by
    unfold bindPattern payloadsRefutable
    refine (refPattern_silently span isMut type st).bind fun found u hu => ?_
    split
    · refine .after (forwardRule.bindErrorIdents _) fun _ _ _ => .pure fun hsome => ?_
      obtain ⟨pointee, hfound, -⟩ := hsome
      cases hfound
    · next pointee =>
      refine (bindPattern_covered h₀ module inner pointee u (h.onward hu)).onward.mono
        fun r v hr hfound hshape hfalse => ?_
      obtain ⟨_, heq, href⟩ := hfound
      cases heq
      refine (href.mono hr.1).covered fun s hs v hv => ?_
      unfold Matches
      exact ⟨v, rfl, hr.2 hshape hfalse s hs v hv⟩
  | .or _ [], _, _, _ => by
    unfold bindPattern payloadsRefutable anyPayloads
    exact .pure (by simp)
  | .or _ (first :: rest), type, st, h => by
    unfold bindPattern payloadsRefutable anyPayloads
    refine (bindPattern_covered h₀ module first type st h).bind fun part u hu => ?_
    refine .after forwardRule.innermost fun _ w hw => ?_
    refine (bindAlternatives_covered h₀ module type rest part w _
      ((h.onward hu).onward hw)).onward.mono fun r v hr hpart hshape hfalse s hs v hv => ?_
    obtain ⟨hfirst, hrest⟩ := hr.2 hfalse
    unfold Matches MatchAny
    rcases (Bool.or_eq_true _ _).mp hshape with h | h
    · exact .inl (hpart h hfirst s ((hw.storage.trans hr.1).trans hs) v hv)
    · exact .inr (hrest h s hs v hv)

theorem bindElements_covered (h₀ : Checking p st₀) (module : Nat) : ∀ (patterns : List Pattern)
    (types : List TypeIdx) (refutable : Bool) (st : BodyState), Checking p st →
      Silently st (bindElements p module patterns types refutable) fun r u =>
        types.length = patterns.length → allPayloads patterns = true → r = false → refutable = false ∧
          ∀ s, u.check.table.storage.Extends s → ∀ parts, List.Forall₂ (HasType sc s) types parts →
            MatchAll sc p module st₀ patterns parts
  | [], _, _, st, _ => by
    unfold bindElements
    refine .pure fun hlength _ hfalse => ⟨hfalse, fun s _ parts hparts => ?_⟩
    rw [List.length_eq_zero_iff.1 hlength] at hparts
    cases hparts
    simp [MatchAll]
  | _ :: _, [], _, st, _ => by
    unfold bindElements
    exact .pure (by simp)
  | pattern :: rest, type :: types, refutable, st, h => by
    unfold bindElements allPayloads
    refine (bindPattern_covered h₀ module pattern type st h).bind fun part u hu => ?_
    refine (bindElements_covered h₀ module rest types (part || refutable) u (h.onward hu)).onward.mono
      fun r v hr hpart hlength hshape hfalse => ?_
    rw [Bool.and_eq_true] at hshape
    obtain ⟨hboth, hrest⟩ := hr.2 (Nat.succ.inj hlength) hshape.2 hfalse
    rw [Bool.or_eq_false_iff] at hboth
    refine ⟨hboth.2, fun s hs parts hparts => ?_⟩
    cases hparts with
    | cons hv hvs =>
      unfold MatchAll
      exact ⟨hpart hshape.1 hboth.1 s (hr.1.trans hs) _ hv, hrest s hs _ hvs⟩

theorem bindFields_covered (h₀ : Checking p st₀) (module : Nat) (decl : StructItem)
    (types : IdxRange) : ∀ (fields : List (Ident × Pattern)) (refutable : Bool) (st : BodyState),
      Checking p st → Silently st (bindFields p module decl types fields refutable) fun r u =>
        fieldPayloads fields = true → r = false → refutable = false ∧
          ∀ s, u.check.table.storage.Extends s → ∀ parts,
            List.Forall₂ (HasType sc s) types.toList parts →
              MatchFields sc p module st₀ (some decl) fields parts
  | [], refutable, st, _ => by
    unfold bindFields
    exact .pure fun _ hfalse => ⟨hfalse, fun s _ parts _ => by simp [MatchFields]⟩
  | (name, pattern) :: rest, refutable, st, h => by
    unfold bindFields fieldPayloads
    split
    · refine (report_silently (Q := fun _ _ => False)).bind fun _ u _ => ?_
      refine .after (forwardRule.bindErrorIdents _) fun _ v _ => ?_
      exact .of_ends (forwardRule.bindFields _ _ _ _ _) fun _ _ _ hfalse => hfalse.elim
    · next i hfield =>
      refine (slot_silently types i st).bind fun type u hu => ?_
      refine (bindPattern_covered h₀ module pattern type u (h.onward hu)).bind fun part v hv => ?_
      refine (bindFields_covered h₀ module decl types rest (part || refutable) v
        ((h.onward hu).onward hv)).onward.mono fun r w hr hpart hslot hshape hfalse => ?_
      rw [Bool.and_eq_true] at hshape
      obtain ⟨hboth, hrest⟩ := hr.2 hshape.2 hfalse
      rw [Bool.or_eq_false_iff] at hboth
      refine ⟨hboth.2, fun s hs parts hparts => ?_⟩
      obtain ⟨part', hget, htype⟩ := forall₂_getElem? hparts hslot
      unfold MatchFields
      refine ⟨⟨decl, i, part', rfl, hfield, hget, ?_⟩, hrest s hs parts hparts⟩
      exact hpart hshape.1 hboth.1 s (hr.1.trans hs) part' htype

theorem bindAlternatives_covered (h₀ : Checking p st₀) (module : Nat) (type : TypeIdx) :
    ∀ (alternatives : List Pattern) (refutable : Bool) (st : BodyState) (base : Nat),
      Checking p st → Silently st (bindAlternatives p module base type alternatives refutable)
        fun r u => r = false → refutable = false ∧ (anyPayloads alternatives = true →
          Covered sc u.check.table.storage type (MatchAny sc p module st₀ alternatives))
  | [], refutable, st, base, _ => by
    unfold bindAlternatives anyPayloads
    exact .pure (by simp)
  | pattern :: rest, refutable, st, base, h => by
    rw [bindAlternatives_cons]
    unfold anyPayloads
    have hmono (part : Bool) (u v : BodyState) (hv : Onward u.check v.check)
        (hpart : payloadsRefutable pattern = true → part = false →
          Covered sc u.check.table.storage type (Matches sc p module st₀ pattern)) :
        payloadsRefutable pattern = true → part = false →
          Covered sc v.check.table.storage type (Matches sc p module st₀ pattern) :=
      fun hshape hfalse => (hpart hshape hfalse).mono hv.storage
    refine (alternative_silently hmono (fun u hu => bindPattern_covered h₀ module pattern type u
      (h.onward hu)) base pattern.span).bind fun part u hu => ?_
    refine (bindAlternatives_covered h₀ module type rest (part || refutable) u base
      (h.onward hu)).onward.mono fun r v hr hpart hfalse => ?_
    obtain ⟨hboth, hrest⟩ := hr.2 hfalse
    rw [Bool.or_eq_false_iff] at hboth
    refine ⟨hboth.2, fun hshape s hs v hv => ?_⟩
    unfold MatchAny
    rcases (Bool.or_eq_true _ _).mp hshape with h | h
    · exact .inl (hpart h hboth.1 s (hr.1.trans hs) v hv)
    · exact .inr (hrest h s hs v hv)

end

end Covered

/-! ## Variants -/

/-- One part that binds is enough for a variant to be called irrefutable. -/
theorem bindPayload_irrefutable (module : Nat) : ∀ (patterns : List Pattern)
    (types : List TypeIdx) (refutable : Bool) (st : BodyState),
      Ends st (bindPayload p module patterns types refutable) fun r _ =>
        types.length = patterns.length →
          refutable = false ∨ (∃ pattern ∈ patterns, refutableShape true pattern = false) → r = false
  | [], _, _, st => by
    unfold bindPayload
    exact .pure fun _ h => h.resolve_right (by simp)
  | _ :: _, [], _, st => by
    unfold bindPayload
    exact .pure (by simp)
  | pattern :: rest, type :: types, refutable, st => by
    unfold bindPayload
    refine .bind ((bindPattern_irrefutable module pattern type st).mono fun part u hpart => ?_)
    refine (bindPayload_irrefutable module rest types (part && refutable) u).mono
      fun r _ hr hlength h => hr (Nat.succ.inj hlength) ?_
    rcases h with hacc | ⟨other, hmem, hother⟩
    · exact .inl (by rw [hacc, Bool.and_false])
    · rcases List.mem_cons.1 hmem with rfl | hmem
      · exact .inl (by rw [hpart hother, Bool.false_and])
      · exact .inr ⟨other, hmem, hother⟩

theorem fittingPayload_silently (span : Span) (arity : Nat) (type : TypeIdx) (resolved : PathValue)
    (st : BodyState) : Silently st (fittingPayload p span arity type resolved) fun payloads _ =>
      ∃ types, payloads = some types ∧ types.length = arity := by
  refine .after (forwardRule.variantPayloads _ _ _) fun payloads u _ => ?_
  split
  · next hlength => exact .pure ⟨payloads, rfl, hlength⟩
  · exact (report_silently (Q := fun _ _ => False)).bind fun _ v _ => .pure False.elim

theorem variantPattern_silently (module : Nat) (span : Span) (path : Path) (arity : Nat)
    (type : TypeIdx) (st : BodyState) :
    Silently st (variantPattern p module span path arity type) fun payloads _ =>
      (variantAt p module path st).isSome → ∃ types, payloads = some types ∧ types.length = arity := by
  have hresolve : Silently st (resolveVariantPath p module path) fun resolved _ =>
      resolved = none → variantAt p module path st = none := by
    refine .of_ends (forwardRule.resolveVariantPath _ _) fun resolved u hrun hnone => ?_
    rw [variantAt, hrun, hnone]
    rfl
  refine hresolve.bind fun resolved u _ => ?_
  split
  · refine .pure fun h hsome => ?_
    rw [h rfl] at hsome
    cases hsome
  · refine .after (forwardRule.unify _ _ _ _) fun _ v _ => ?_
    exact (fittingPayload_silently _ _ _ _ v).mono fun _ _ h _ _ => h
  · exact (fittingPayload_silently _ _ _ _ u).mono fun _ _ h _ _ => h
  · exact (report_silently (Q := fun _ _ => False)).bind fun _ v _ => .pure False.elim

/-- The source begins with `true`, and a part that binds makes that `false`. -/
theorem bindVariant_irrefutable (module : Nat) (span : Span) (path : Path) (elements : List Pattern)
    (type : TypeIdx) (st : BodyState) :
    Silently st (bindPattern p module (.tuple span (some path) elements) type) fun refutable _ =>
      (variantAt p module path st).isSome → (∃ element ∈ elements, refutableShape true element = false) →
        refutable = false := by
  unfold bindPattern
  refine (variantPattern_silently module span path elements.length type st).bind fun payloads u _ => ?_
  split
  · refine .after (forwardRule.bindErrorIdents _) fun _ _ _ => .pure fun h hsome => ?_
    obtain ⟨types, heq, -⟩ := h hsome
    cases heq
  · next types =>
    have hpayload := bindPayload_irrefutable (p := p) module elements types true u
    refine (Silently.of_ends (forwardRule.bindPayload _ _ _ _) hpayload).mono ?_
    intro refutable _ hr h hsome hpart
    obtain ⟨types', heq, hlength⟩ := h hsome
    cases heq
    exact hr hlength (.inr hpart)

theorem allRefutable_eq_false {elements : List Pattern} (h : ¬ allRefutable false elements = true) :
    ∃ element ∈ elements, refutableShape false element = false := by
  induction elements with
  | nil =>
    unfold allRefutable at h
    exact absurd rfl h
  | cons first rest ih =>
    unfold allRefutable at h
    rw [Bool.and_eq_true, not_and_or, Bool.not_eq_true] at h
    rcases h with h | h
    · exact ⟨first, List.mem_cons_self .., h⟩
    · obtain ⟨element, hmem, helement⟩ := ih h
      exact ⟨element, List.mem_cons_of_mem _ hmem, helement⟩

/-- What is asked of a run: a pattern that is called irrefutable matches every value. -/
def JudgedRight (sc : Scalars) (p : Package) (module : Nat) (pattern : Pattern) (type : TypeIdx)
    (st : BodyState) (refutable : Bool) (u : BodyState) : Prop :=
  refutable = false → ∀ v, HasType sc u.check.table.storage type v → Matches sc p module st pattern v

/-- The shape of the pattern says whether it is refutable, whatever the types. -/
def Decided (pattern : Pattern) : Prop := refutableShape true pattern = refutableShape false pattern

/-- A pattern bound right after the types, for a parameter of the first function. -/
def bindParam (p : Package) (pattern : Pattern) (i : Nat) :
    Option (BodyState × TypeIdx × Bool × BodyState) := do
  let st ← typed p
  let sig ← (st.check.modules 0).functions.head?
  let type ← sig.params[i]?
  let st := { st with context := { st.context with scopes := [[]] } }
  let (refutable, u) ← (bindPattern p 0 pattern type st).toOption
  return (st, type, refutable, u)

theorem bindParam_some {pattern : Pattern} {i : Nat} {st u : BodyState} {type : TypeIdx}
    {refutable : Bool} (h : bindParam p pattern i = some (st, type, refutable, u)) :
    Checking p st ∧ bindPattern p 0 pattern type st = .ok (refutable, u) := by
  obtain ⟨start, hstart, h⟩ := Option.bind_eq_some_iff.1 h
  obtain ⟨sig, hsig, h⟩ := Option.bind_eq_some_iff.1 h
  obtain ⟨type', htype, h⟩ := Option.bind_eq_some_iff.1 h
  obtain ⟨result, hresult, h⟩ := Option.bind_eq_some_iff.1 h
  cases h
  obtain ⟨ran, hran, rfl⟩ := Option.map_eq_some_iff.1 hstart
  cases htypes : checkTypes p .start with
  | error fault =>
    rw [htypes] at hran
    cases hran
  | ok result' =>
    rw [htypes] at hran
    cases hran
    refine ⟨⟨ran.2, htypes, Std.Refl.refl _⟩, ?_⟩
    cases hbind : bindPattern p 0 pattern type { ran.2 with
        context := { ran.2.context with scopes := [[]] } } with
    | error fault =>
      rw [hbind] at hresult
      cases hresult
    | ok outcome =>
      rw [hbind] at hresult
      cases hresult
      rfl

/-- Scalars of any code, spelled by any literal. -/
def anyScalars : Scalars := ⟨fun _ _ => True, fun _ _ => True⟩

/-- `fn f(o: Option<i32>, q: (i32, i32)) {}` -/
def takingBoth : Package :=
  let i32 : Ty := .primitive default .i32
  onlyRoot [.fn (fnOf "f" [⟨named "o", .path default (pathTo ["Option"]) [i32]⟩,
    ⟨named "q", .tuple default [i32, i32]⟩] none none)]

/-- `Some(x)` -/
def someX : Pattern := .tuple default (some (pathTo ["Some"])) [named "x"]

/-- `fn f(o: Option<i32>) { Some(x) := o; }` -/
def letSome : Package :=
  onlyRoot [.fn ⟨default, false, ⟨"f", default⟩,
    [⟨named "o", .path default (pathTo ["Option"]) [.primitive default .i32]⟩], none,
    .mk default [.decl default someX none (.path default (pathTo ["o"]))] none⟩]

end Alcy.Analyzer.Bodies
