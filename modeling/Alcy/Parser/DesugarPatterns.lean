import Alcy.Parser.Renaming

/-! # What the pass does to patterns

Two readings of one visit. Where a pattern may declare, an accepted visit extends
the renaming by the pattern's binders. In a later alternative, where the scope is
already there and must not grow, it only looks names up. -/
namespace Alcy.Parser
open Alcy.Ast Alcy.Diag
open Scoping (Env NM Numbering mapNames mapNamesAll mapNamesFields)
open Desugar

variable {α β γ : Type}

/-! ## Numberings that agree -/

/-- Nothing but keyword spellings. -/
def Keyed (names : List String) : Prop := ∀ x ∈ names, isKeywordName x = true

/-- Two numberings that give related results under the same numbers; in the second
only keyword spellings clash. -/
def Agree {β' : Type} (S : β → β' → Prop) (q : NM β) (q' : NM β') : Prop :=
  ∀ n n' : Numbering, n.next = n'.next → Keyed n'.clashes →
    S (q n).1 (q' n').1 ∧ (q n).2.next = (q' n').2.next ∧ Keyed (q' n').2.clashes

theorem Agree.pure {β' : Type} {S : β → β' → Prop} {b : β} {b' : β'} (h : S b b') :
    Agree S (pure b) (pure b') := fun _ _ hn hk => ⟨h, hn, hk⟩

theorem Agree.bind {β' γ' : Type} {S : β → β' → Prop} {S' : γ → γ' → Prop} {q : NM β}
    {q' : NM β'} {f : β → NM γ} {f' : β' → NM γ'} (h : Agree S q q')
    (hf : ∀ b b', S b b' → Agree S' (f b) (f' b')) : Agree S' (q >>= f) (q' >>= f') := by
  intro n n' hn hk
  obtain ⟨hs, hn, hk⟩ := h n n' hn hk
  exact hf _ _ hs _ _ hn hk

/-! ## Visits -/

/-- The bag is never taken back. -/
def Grows (p : DM α) : Prop := ∀ s, s.bag <+: (p s).2.bag

theorem grows_pure {a : α} : Grows (pure a : DM α) := fun _ => List.prefix_refl _

theorem Grows.bind {p : DM α} {f : α → DM β} (hp : Grows p) (hf : ∀ a, Grows (f a)) :
    Grows (p >>= f) := fun s => (hp s).trans (hf _ _)

/-- A run that adds nothing adds nothing in either half. -/
theorem Grows.split {p : DM α} {f : α → DM β} (hp : Grows p) (hf : ∀ a, Grows (f a))
    {s : Desugar} (h : ((p >>= f) s).2.bag = s.bag) :
    (p s).2.bag = s.bag ∧ (f (p s).1 (p s).2).2.bag = (p s).2.bag := by
  have h1 := hp s
  have h2 : (p s).2.bag <+: s.bag := by
    have := hf (p s).1 (p s).2
    rwa [show (f (p s).1 (p s).2).2.bag = s.bag from h] at this
  have he : (p s).2.bag = s.bag := h2.eq_of_length (Nat.le_antisymm h2.length_le h1.length_le)
  exact ⟨he, (show (f (p s).1 (p s).2).2.bag = s.bag from h).trans he.symm⟩

/-- From the scopes of `R`, an accepted visit with at most `k` new names leaves the
scopes of a renaming that `Q` allows with its result. -/
structure Sim (R : Renaming) (k : Nat) (p : DM α) (Q : Renaming → α → Prop) : Prop where
  grows : Grows p
  run : ∀ s, Tracks s R → s.counter + k < 2 ^ 32 → (p s).2.bag = s.bag →
    (p s).2.counter ≤ s.counter + k ∧ ∃ R', Tracks (p s).2 R' ∧ Q R' (p s).1

variable {R : Renaming} {k : Nat}

theorem Sim.pure {a : α} {Q : Renaming → α → Prop} (h : Q R a) : Sim R 0 (pure a) Q :=
  ⟨grows_pure, fun _ hs _ _ => ⟨Nat.le_refl _, R, hs, h⟩⟩

theorem Sim.bind {k' : Nat} {p : DM α} {f : α → DM β} {Q : Renaming → α → Prop}
    {Q' : Renaming → β → Prop} (hp : Sim R k p Q)
    (hf : ∀ R' a, Sim R' k' (f a) fun R'' b => Q R' a → Q' R'' b) :
    Sim R (k + k') (p >>= f) Q' := by
  refine ⟨hp.grows.bind fun a => (hf R a).grows, fun s hs hk hclean => ?_⟩
  obtain ⟨hclean1, hclean2⟩ := hp.grows.split (fun a => (hf R a).grows) hclean
  obtain ⟨hk1, R', hs', hq⟩ := hp.run s hs (by omega) hclean1
  obtain ⟨hk2, R'', hs'', hq'⟩ := (hf R' _).run _ hs' (by omega) hclean2
  exact ⟨show (f _ _).2.counter ≤ _ by omega, R'', hs'', hq' hq⟩

theorem Sim.mono {k' : Nat} {p : DM α} {Q : Renaming → α → Prop} (h : Sim R k p Q) (hk : k ≤ k') :
    Sim R k' p Q :=
  ⟨h.grows, fun s hs hk' hclean =>
    let ⟨hc, hr⟩ := h.run s hs (by omega) hclean
    ⟨by omega, hr⟩⟩

/-- A visit that leaves the names in scope alone, and the trees before and after
agree. -/
def Keeps (k : Nat) (p : DM α) (q : Env → NM α) (q' : α → Env → NM α) : Prop :=
  ∀ R, Sim R k p fun R' a => R' = R ∧ ∀ env env', Aligned R env env' → Agree Eq (q env) (q' a env')

/-- What a numbering that also binds must agree on. -/
def Extends (R : Renaming) (b b' : α × Env) : Prop := b.1 = b'.1 ∧ Aligned R b.2 b'.2

/-- A visit that binds in the innermost scope. -/
def Binds (k : Nat) (p : DM α) (q : Env → NM (α × Env)) (q' : α → Env → NM (α × Env)) : Prop :=
  ∀ R, Sim R k p fun R' a => R'.tail = R.tail ∧
    ∀ env env', Aligned R env env' → Agree (Extends R') (q env) (q' a env')

theorem grows_pushScope (scope : List Binding) : Grows (pushScope scope) :=
  fun _ => List.prefix_refl _

theorem grows_popScope : Grows popScope := fun _ => List.prefix_refl _

theorem Sim.push {f : Unit → DM α} {Q : Renaming → α → Prop} (h : Sim ([] :: R) k (f ()) Q) :
    Sim R k (pushScope [] >>= f) Q :=
  ⟨(grows_pushScope _).bind fun _ => h.grows, fun _ hs hk hclean => h.run _ hs.push hk hclean⟩

theorem Sim.pop {f : Unit → DM α} {Q : Renaming → α → Prop} (h : Sim R.tail k (f ()) Q) :
    Sim R k (popScope >>= f) Q :=
  ⟨grows_popScope.bind fun _ => h.grows, fun _ hs hk hclean => h.run _ hs.pop hk hclean⟩

/-! ## One rule for each way a node is put together -/

variable {δ : Type} {k₁ k₂ k₃ : Nat} {p₁ : DM α} {p₂ : DM β} {p₃ : DM γ}

section Keeps
variable {q₁ : Env → NM α} {q₁' : α → Env → NM α} {q₂ : Env → NM β} {q₂' : β → Env → NM β}
  {q₃ : Env → NM γ} {q₃' : γ → Env → NM γ} {q : Env → NM δ} {q' : δ → Env → NM δ}

theorem keeps_pure {d : δ} (hq : ∀ env, q env = pure d) (hq' : ∀ env, q' d env = pure d) :
    Keeps 0 (pure d) q q' :=
  fun _ => .pure ⟨rfl, fun env env' _ => by rw [hq, hq']; exact .pure rfl⟩

theorem Keeps.map (C : α → δ) (h₁ : Keeps k₁ p₁ q₁ q₁')
    (hq : ∀ env, q env = do return C (← q₁ env))
    (hq' : ∀ a env, q' (C a) env = do return C (← q₁' a env)) :
    Keeps k₁ (do return C (← p₁)) q q' := by
  refine fun R => (h₁ R).bind fun R₁ a => .pure fun ⟨hR, ha⟩ => ⟨hR, fun env env' hal => ?_⟩
  rw [hq, hq']
  exact (ha env env' hal).bind fun x x' hx => .pure (by rw [hx])

theorem Keeps.map₂ (C : α → β → δ) (h₁ : Keeps k₁ p₁ q₁ q₁') (h₂ : Keeps k₂ p₂ q₂ q₂')
    (hq : ∀ env, q env = do return C (← q₁ env) (← q₂ env))
    (hq' : ∀ a b env, q' (C a b) env = do return C (← q₁' a env) (← q₂' b env)) :
    Keeps (k₁ + k₂) (do return C (← p₁) (← p₂)) q q' := by
  refine fun R => (h₁ R).bind fun R₁ a => (h₂ R₁).bind fun R₂ b =>
    .pure fun ⟨hR₂, hb⟩ ⟨hR₁, ha⟩ => ?_
  subst hR₂ hR₁
  refine ⟨rfl, fun env env' hal => ?_⟩
  rw [hq, hq']
  exact (ha env env' hal).bind fun x x' hx => (hb env env' hal).bind fun y y' hy =>
    .pure (by rw [hx, hy])

theorem Keeps.map₃ (C : α → β → γ → δ) (h₁ : Keeps k₁ p₁ q₁ q₁') (h₂ : Keeps k₂ p₂ q₂ q₂')
    (h₃ : Keeps k₃ p₃ q₃ q₃') (hq : ∀ env, q env = do return C (← q₁ env) (← q₂ env) (← q₃ env))
    (hq' : ∀ a b c env, q' (C a b c) env =
      do return C (← q₁' a env) (← q₂' b env) (← q₃' c env)) :
    Keeps (k₁ + (k₂ + k₃)) (do return C (← p₁) (← p₂) (← p₃)) q q' := by
  refine fun R => (h₁ R).bind fun R₁ a => (h₂ R₁).bind fun R₂ b => (h₃ R₂).bind fun R₃ c =>
    .pure fun ⟨hR₃, hc⟩ ⟨hR₂, hb⟩ ⟨hR₁, ha⟩ => ?_
  subst hR₃ hR₂ hR₁
  refine ⟨rfl, fun env env' hal => ?_⟩
  rw [hq, hq']
  exact (ha env env' hal).bind fun x x' hx => (hb env env' hal).bind fun y y' hy =>
    (hc env env' hal).bind fun z z' hz => .pure (by rw [hx, hy, hz])

end Keeps

section Binds
variable {q₁ : Env → NM (α × Env)} {q₁' : α → Env → NM (α × Env)} {q₂ : Env → NM (β × Env)}
  {q₂' : β → Env → NM (β × Env)} {q : Env → NM (δ × Env)} {q' : δ → Env → NM (δ × Env)}

theorem binds_pure {d : δ} (hq : ∀ env, q env = pure (d, env))
    (hq' : ∀ env, q' d env = pure (d, env)) : Binds 0 (pure d) q q' :=
  fun _ => .pure ⟨rfl, fun env env' hal => by rw [hq, hq']; exact .pure ⟨rfl, hal⟩⟩

theorem Binds.map (C : α → δ) (h₁ : Binds k₁ p₁ q₁ q₁')
    (hq : ∀ env, q env = do
      let (x, env) ← q₁ env
      return (C x, env))
    (hq' : ∀ a env, q' (C a) env = do
      let (x, env) ← q₁' a env
      return (C x, env)) : Binds k₁ (do return C (← p₁)) q q' := by
  refine fun R => (h₁ R).bind fun R₁ a => .pure fun ⟨hR, ha⟩ => ⟨hR, fun env env' hal => ?_⟩
  rw [hq, hq']
  exact (ha env env' hal).bind fun x x' hx => .pure ⟨by rw [hx.1], hx.2⟩

theorem Binds.map₂ (C : α → β → δ) (h₁ : Binds k₁ p₁ q₁ q₁') (h₂ : Binds k₂ p₂ q₂ q₂')
    (hq : ∀ env, q env = do
      let (x, env) ← q₁ env
      let (y, env) ← q₂ env
      return (C x y, env))
    (hq' : ∀ a b env, q' (C a b) env = do
      let (x, env) ← q₁' a env
      let (y, env) ← q₂' b env
      return (C x y, env)) : Binds (k₁ + k₂) (do return C (← p₁) (← p₂)) q q' := by
  refine fun R => (h₁ R).bind fun R₁ a => (h₂ R₁).bind fun R₂ b =>
    .pure fun ⟨hR₂, hb⟩ ⟨hR₁, ha⟩ => ⟨hR₂.trans hR₁, fun env env' hal => ?_⟩
  rw [hq, hq']
  exact (ha env env' hal).bind fun x x' hx => (hb _ _ hx.2).bind fun y y' hy =>
    .pure ⟨by rw [hx.1, hy.1], hy.2⟩

/-- A visit that keeps the names, before one that binds. -/
theorem Keeps.thenBinds {q₁ : Env → NM α} {q₁' : α → Env → NM α} (C : α → β → δ)
    (h₁ : Keeps k₁ p₁ q₁ q₁') (h₂ : Binds k₂ p₂ q₂ q₂')
    (hq : ∀ env, q env = do
      let x ← q₁ env
      let (y, env) ← q₂ env
      return (C x y, env))
    (hq' : ∀ a b env, q' (C a b) env = do
      let x ← q₁' a env
      let (y, env) ← q₂' b env
      return (C x y, env)) : Binds (k₁ + k₂) (do return C (← p₁) (← p₂)) q q' := by
  refine fun R => (h₁ R).bind fun R₁ a => (h₂ R₁).bind fun R₂ b =>
    .pure fun ⟨hR₂, hb⟩ ⟨hR₁, ha⟩ => ?_
  subst hR₁
  refine ⟨hR₂, fun env env' hal => ?_⟩
  rw [hq, hq']
  exact (ha env env' hal).bind fun x x' hx => (hb env env' hal).bind fun y y' hy =>
    .pure ⟨by rw [hx, hy.1], hy.2⟩

/-- A visit that keeps the names binds none. -/
theorem Keeps.binds {q₁ : Env → NM α} {q₁' : α → Env → NM α} (C : α → δ)
    (h₁ : Keeps k₁ p₁ q₁ q₁') (hq : ∀ env, q env = do return (C (← q₁ env), env))
    (hq' : ∀ a env, q' (C a) env = do return (C (← q₁' a env), env)) :
    Binds k₁ (do return C (← p₁)) q q' := by
  refine fun R => (h₁ R).bind fun R₁ a => .pure fun ⟨hR, ha⟩ => ?_
  subst hR
  refine ⟨rfl, fun env env' hal => ?_⟩
  rw [hq, hq']
  exact (ha env env' hal).bind fun x x' hx => .pure ⟨by rw [hx], hal⟩

/-- A scope with what is bound and what is seen in it. -/
def inScope (p₁ : DM α) (p₂ : DM β) : DM (α × β) := do
  pushScope []
  let a ← p₁
  let b ← p₂
  popScope
  return (a, b)

def nameScope (q₁ : Env → NM (α × Env)) (q₂ : Env → NM β) (env : Env) : NM (α × β) := do
  let (x, inner) ← q₁ ([] :: env)
  return (x, ← q₂ inner)

theorem Keeps.inScope {q₂ : Env → NM β} {q₂' : β → Env → NM β} (h₁ : Binds k₁ p₁ q₁ q₁')
    (h₂ : Keeps k₂ p₂ q₂ q₂') : Keeps (k₁ + k₂) (inScope p₁ p₂) (nameScope q₁ q₂)
      fun c => nameScope (q₁' c.1) (q₂' c.2) := by
  intro R
  refine .push <| (h₁ _).bind fun R₁ a => ?_
  show Sim R₁ (k₂ + 0) _ _
  refine (h₂ R₁).bind fun R₂ b => .pop ?_
  refine .pure fun ⟨hR₂, hb⟩ ⟨hR₁, ha⟩ => ?_
  subst hR₂
  refine ⟨hR₁, fun env env' hal => ?_⟩
  exact (ha _ _ hal.push).bind fun x x' hx => (hb _ _ hx.2).bind fun y y' hy =>
    .pure (by rw [hx.1, hy])

end Binds

/-! ## Visits that declare nothing -/

/-- What an or-pattern scope makes of a name. -/
def renameIn (scope : List Binding) (x : String) : String :=
  if isKeywordName x then x else ((scope.find? (·.orig == x)).map (·.fresh)).getD x

/-- A name that needs no new binding. -/
def Found (scope : List Binding) (x : String) : Prop :=
  isKeywordName x = true ∨ ∃ b ∈ scope, b.orig = x

/-- The part of a binding that lookups read. -/
def Binding.names (b : Binding) : String × String := (b.orig, b.fresh)

theorem renameIn_congr {a b : List Binding} (h : a.map (·.names) = b.map (·.names)) :
    renameIn a = renameIn b := by
  have hfind : ∀ (l : List Binding) (x : String), (l.find? (·.orig == x)).map (·.fresh) =
      ((l.map (·.names)).find? (·.1 == x)).map (·.2) := by
    intro l x
    rw [List.find?_map, Option.map_map]
    rfl
  funext x
  simp only [renameIn, hfind, h]

theorem found_congr {a b : List Binding} (h : a.map (·.names) = b.map (·.names)) {x : String}
    (hf : Found a x) : Found b x := by
  refine hf.imp_right fun ⟨c, hc, hx⟩ => ?_
  have := List.mem_map_of_mem (f := (·.names)) hc
  rw [h] at this
  obtain ⟨d, hd, he⟩ := List.mem_map.mp this
  exact ⟨d, hd, (congrArg Prod.fst he).trans hx⟩

/-- A visit that never narrows the current scope and leaves the outer ones. When it
adds no diagnostic and no binding it has only looked its names up there. -/
structure Steady (names : List String) (f : (String → String) → α) (p : DM α) : Prop where
  grows : Grows p
  outer : ∀ s, (p s).2.scopes.tail = s.scopes.tail
  count : ∀ s, (p s).2.scopes.length = s.scopes.length
  wider : ∀ s, s.current.length ≤ (p s).2.current.length
  run : ∀ s, s.scopes ≠ [] → (p s).2.bag = s.bag →
    (p s).2.current.length = s.current.length →
    (p s).1 = f (renameIn s.current) ∧ (∀ x ∈ names, Found s.current x) ∧
      (p s).2.current.map (·.names) = s.current.map (·.names) ∧ (p s).2.counter = s.counter

theorem steady_pure {a : α} {f : (String → String) → α} (h : ∀ g, f g = a) :
    Steady [] f (pure a) :=
  ⟨grows_pure, fun _ => rfl, fun _ => rfl, fun _ => Nat.le_refl _,
    fun _ _ _ _ => ⟨(h _).symm, by simp, rfl, rfl⟩⟩

theorem Steady.map₂ {a b : List String} {f : (String → String) → α} {g : (String → String) → β}
    (C : α → β → γ) (hp : Steady a f p₁) (hq : Steady b g p₂) :
    Steady (a ++ b) (fun h => C (f h) (g h)) (do return C (← p₁) (← p₂)) := by
  have hgrows : ∀ x, Grows (do return C x (← p₂)) := fun x => hq.grows.bind fun _ => grows_pure
  refine ⟨hp.grows.bind hgrows, fun s => (hq.outer _).trans (hp.outer s),
    fun s => (hq.count _).trans (hp.count s), fun s => Nat.le_trans (hp.wider s) (hq.wider _),
    fun s hne hclean hlen => ?_⟩
  obtain ⟨hclean₁, hclean₂⟩ := hp.grows.split hgrows hclean
  have h1 := hp.wider s
  have h2 := hq.wider (p₁ s).2
  have hlen' : (p₂ (p₁ s).2).2.current.length = s.current.length := hlen
  obtain ⟨he, hfound, hcur, hcounter⟩ := hp.run s hne hclean₁ (by omega)
  have hne' : (p₁ s).2.scopes ≠ [] := by
    rw [← List.length_pos_iff, hp.count s]
    exact List.length_pos_iff.mpr hne
  obtain ⟨he', hfound', hcur', hcounter'⟩ := hq.run _ hne' hclean₂ (by omega)
  refine ⟨?_, fun x hx => ?_, hcur'.trans hcur, hcounter'.trans hcounter⟩
  · show C (p₁ s).1 (p₂ (p₁ s).2).1 = _
    rw [he, he', renameIn_congr hcur]
  · rcases List.mem_append.mp hx with hx | hx
    · exact hfound x hx
    · exact found_congr hcur (hfound' x hx)

theorem Steady.map {a : List String} {f : (String → String) → α} (C : α → γ)
    (hp : Steady a f p₁) : Steady a (fun h => C (f h)) (do return C (← p₁)) := by
  refine ⟨hp.grows.bind fun _ => grows_pure, hp.outer, hp.count, hp.wider,
    fun s hne hclean hlen => ?_⟩
  obtain ⟨he, hrest⟩ := hp.run s hne hclean hlen
  exact ⟨congrArg C he, hrest⟩

theorem markSeen_names (x : String) (scope : List Binding) :
    (markSeen x scope).map (·.names) = scope.map (·.names) := by
  induction scope with
  | nil => rfl
  | cons b scope ih =>
    unfold markSeen
    split
    · rfl
    · rw [List.map_cons, List.map_cons, ih]

theorem current_modifyHead {s : Desugar} {g : List Binding → List Binding} (h : s.scopes ≠ []) :
    ({ s with scopes := s.scopes.modifyHead g } : Desugar).current = g s.current := by
  cases hs : s.scopes with
  | nil => exact absurd hs h
  | cons scope rest => simp [current, hs]

/-- What `declare_named` can do. -/
theorem declareNamed_cases (ident : Ident) (s : Desugar) :
    (isKeywordName ident.name = true ∧ declareNamed ident s = (ident.name, s)) ∨
    (isKeywordName ident.name = false ∧ ∃ b, s.findInnermost ident.name = some b ∧
      declareNamed ident s =
        (b.fresh, { s with scopes := s.scopes.modifyHead (markSeen ident.name) })) ∨
    (∃ code span message, declareNamed ident s = (ident.name, s.error code span message)) ∨
    ∃ fresh counter, declareNamed ident s =
      (fresh, { s with counter := counter }.declare ⟨ident.name, fresh, false, false⟩) := by
  unfold declareNamed
  split
  · next hk => exact .inl ⟨hk, rfl⟩
  next hk =>
  split
  · next b hb =>
    split
    · exact .inr (.inl ⟨by simpa using hk, b, hb, rfl⟩)
    · exact .inr (.inr (.inl ⟨_, _, _, rfl⟩))
  · dsimp only
    split
    · exact .inr (.inr (.inr ⟨ident.name, s.counter, rfl⟩))
    · exact .inr (.inr (.inr ⟨_, _, rfl⟩))

theorem prefix_emit (bag : DiagBag) (severity : Severity) (code : Nat) (span : Span)
    (message : String) : bag <+: emit bag severity code span message :=
  List.prefix_append _ _

/-- It changes the innermost scope at most, and never narrows it. -/
theorem declareNamed_scopes (ident : Ident) (s : Desugar) :
    s.bag <+: (declareNamed ident s).2.bag ∧ ∃ g : List Binding → List Binding,
      (∀ l, l.length ≤ (g l).length) ∧
      (declareNamed ident s).2.scopes = s.scopes.modifyHead g := by
  obtain ⟨-, h⟩ | ⟨-, b, -, h⟩ | ⟨code, span, message, h⟩ | ⟨fresh, counter, h⟩ :=
    declareNamed_cases ident s
  · rw [h]
    exact ⟨List.prefix_refl _, id, fun _ => Nat.le_refl _, by simp⟩
  · rw [h]
    refine ⟨List.prefix_refl _, markSeen ident.name, fun l => ?_, rfl⟩
    have := congrArg List.length (markSeen_names ident.name l)
    simp only [List.length_map] at this
    omega
  · rw [h]
    exact ⟨prefix_emit _ _ _ _ _, id, fun _ => Nat.le_refl _, by simp [error]⟩
  · rw [h]
    exact ⟨List.prefix_refl _, (· ++ [⟨ident.name, fresh, false, false⟩]), fun l => by simp, rfl⟩

theorem declareNamed_steady (ident : Ident) :
    Steady [ident.name] (fun g => g ident.name) (declareNamed ident) := by
  refine ⟨fun s => (declareNamed_scopes ident s).1, fun s => ?_, fun s => ?_, fun s => ?_,
    fun s hne hclean hlen => ?_⟩
  · obtain ⟨-, g, -, h⟩ := declareNamed_scopes ident s
    rw [h, List.tail_modifyHead]
  · obtain ⟨-, g, -, h⟩ := declareNamed_scopes ident s
    rw [h, List.length_modifyHead]
  · obtain ⟨-, g, hg, h⟩ := declareNamed_scopes ident s
    rw [current, current, h]
    cases s.scopes with
    | nil => exact Nat.le_refl _
    | cons scope rest => exact hg scope
  · obtain ⟨hk, h⟩ | ⟨hk, b, hb, h⟩ | ⟨code, span, message, h⟩ | ⟨fresh, counter, h⟩ :=
      declareNamed_cases ident s <;> rw [h] at hclean hlen ⊢
    · exact ⟨by simp [renameIn, hk], by simp [Found, hk], rfl, rfl⟩
    · refine ⟨?_, fun x hx => ?_, ?_, rfl⟩
      · rw [findInnermost] at hb
        simp [renameIn, hk, hb]
      · rw [List.mem_singleton.mp hx]
        exact .inr ⟨b, List.mem_of_find?_eq_some hb, by simpa using List.find?_some hb⟩
      · rw [current_modifyHead hne, markSeen_names]
    · exact absurd hclean (emit_ne _ _ _ _ _)
    · have hlen : (({ s with counter := counter } : Desugar).declare
        ⟨ident.name, fresh, false, false⟩).current.length = s.current.length := hlen
      rw [declare, @current_modifyHead { s with counter := counter } _ hne] at hlen
      simp [current] at hlen

/-! ## Or-patterns -/

theorem modifyHead_append (scopes : List (List Binding)) (a b : List Binding) :
    (scopes.modifyHead (· ++ a)).modifyHead (· ++ b) = scopes.modifyHead (· ++ (a ++ b)) := by
  cases scopes <;> simp

theorem modifyHead_nil (scopes : List (List Binding)) : scopes.modifyHead (· ++ []) = scopes := by
  cases scopes <;> simp

theorem mergeBinding_spec (span : Span) (s : Desugar) (b : Binding) :
    (mergeBinding span s b).counter = s.counter ∧
      ((∃ message, mergeBinding span s b = s.error kParserAlreadyBound span message) ∨
        mergeBinding span s b = s.declare b) := by
  unfold mergeBinding
  split
  · exact ⟨rfl, .inl ⟨_, rfl⟩⟩
  · exact ⟨rfl, .inr rfl⟩

/-- The merged scopes: a clash is reported, every other binding joins. -/
theorem mergeScope_spec (span : Span) (first : List Binding) : ∀ s : Desugar,
    s.bag <+: (first.foldl (mergeBinding span) s).bag ∧
    (first.foldl (mergeBinding span) s).counter = s.counter ∧
    (∃ more, (first.foldl (mergeBinding span) s).scopes = s.scopes.modifyHead (· ++ more)) ∧
    ((first.foldl (mergeBinding span) s).bag = s.bag →
      (first.foldl (mergeBinding span) s).scopes = s.scopes.modifyHead (· ++ first)) := by
  induction first with
  | nil => exact fun s => ⟨List.prefix_refl _, rfl, ⟨[], (modifyHead_nil _).symm⟩,
      fun _ => (modifyHead_nil _).symm⟩
  | cons b first ih =>
    intro s
    rw [List.foldl_cons]
    obtain ⟨hgrows, hcounter, ⟨more, hscopes⟩, hclean⟩ := ih (mergeBinding span s b)
    obtain ⟨hc, ⟨message, h⟩ | h⟩ := mergeBinding_spec span s b <;>
      rw [h] at hgrows hscopes hclean hc hcounter ⊢
    · have hbag : s.bag <+: (s.error kParserAlreadyBound span message).bag :=
        prefix_emit _ _ _ _ _
      refine ⟨hbag.trans hgrows, hcounter.trans hc, ⟨more, hscopes⟩, fun he => ?_⟩
      rw [he] at hgrows
      have := hgrows.length_le
      simp only [error, emit, List.length_append, List.length_singleton] at this
      omega
    · refine ⟨hgrows, hcounter.trans hc, ⟨[b] ++ more, ?_⟩, fun he => ?_⟩
      · rw [hscopes, declare, modifyHead_append]
      · rw [hclean he, declare, modifyHead_append, List.singleton_append]

/-- What the later alternatives come to: in an accepted visit each only looks its
names up in the scope of the first one. -/
structure Settled (bound : List Binding) (ps : List Pattern) (p : DM (List Pattern)) : Prop where
  grows : Grows p
  scopes : ∀ s, (p s).2.scopes = s.scopes
  run : ∀ s, (p s).2.bag = s.bag → (p s).1 = mapNamesAll (renameIn bound) ps ∧
    (∀ x ∈ bindersAll ps, Found bound x) ∧ (p s).2.counter = s.counter

theorem preseed_names (bound : List Binding) :
    (preseed bound).map (·.names) = bound.map (·.names) := by
  simp [preseed, Binding.names, Function.comp_def]

theorem checkAlternative_cases (span : Span) (bound : List Binding) (s : Desugar) :
    (∃ message, (checkAlternative span bound s).2 =
      s.error kParserOrPatternMismatch span message) ∨
    ((checkAlternative span bound s).2 = s ∧ s.current.length = bound.length) := by
  by_cases h : (s.current.length != bound.length ||
      s.current.any fun b => b.preseeded && !b.seen) = true
  · exact .inl ⟨_, if_pos h⟩
  · refine .inr ⟨if_neg h, ?_⟩
    simp at h
    exact h.1

theorem prefix_antisymm {a b : DiagBag} (h : a <+: b) (h' : b <+: a) : b = a :=
  (h.eq_of_length (Nat.le_antisymm h.length_le h'.length_le)).symm

theorem Settled.cons {span : Span} {bound : List Binding} {p : Pattern} {ps : List Pattern}
    (hp : Steady (binders p) (fun g => mapNames g p) (visitPattern p))
    (hps : Settled bound ps (visitAlternatives span bound ps)) :
    Settled bound (p :: ps) (visitAlternatives span bound (p :: ps)) := by
  -- the states after each step of a round
  obtain ⟨s₁, hs₁⟩ : ∃ s₁ : Desugar → Desugar, ∀ s, s₁ s =
    (visitPattern p { s with scopes := preseed bound :: s.scopes }).2 := ⟨_, fun _ => rfl⟩
  obtain ⟨s₂, hs₂⟩ : ∃ s₂ : Desugar → Desugar, ∀ s, s₂ s =
    (checkAlternative span bound (s₁ s)).2 := ⟨_, fun _ => rfl⟩
  obtain ⟨s₃, hs₃⟩ : ∃ s₃ : Desugar → Desugar, ∀ s, s₃ s =
    { s₂ s with scopes := (s₂ s).scopes.tail } := ⟨_, fun _ => rfl⟩
  have hrun : ∀ s, visitAlternatives span bound (p :: ps) s =
      ((visitPattern p { s with scopes := preseed bound :: s.scopes }).1 ::
        (visitAlternatives span bound ps (s₃ s)).1, (visitAlternatives span bound ps (s₃ s)).2) := by
    intro s
    rw [hs₃, hs₂, hs₁]
    rfl
  have hcheck : ∀ s, (s₁ s).bag <+: (s₂ s).bag ∧ (s₂ s).scopes = (s₁ s).scopes := by
    intro s
    rw [hs₂]
    obtain ⟨message, h⟩ | ⟨h, -⟩ := checkAlternative_cases span bound (s₁ s) <;> rw [h]
    · exact ⟨prefix_emit _ _ _ _ _, rfl⟩
    · exact ⟨List.prefix_refl _, rfl⟩
  have hgrow₁ : ∀ s, s.bag <+: (s₁ s).bag := fun s => by
    rw [hs₁]
    exact hp.grows { s with scopes := preseed bound :: s.scopes }
  have hgrow₃ : ∀ s, (s₂ s).bag <+: (visitAlternatives span bound ps (s₃ s)).2.bag := fun s => by
    have hbag : (s₃ s).bag = (s₂ s).bag := by rw [hs₃]
    exact hbag ▸ hps.grows (s₃ s)
  refine ⟨fun s => ?_, fun s => ?_, fun s hclean => ?_⟩
  · rw [hrun]
    exact (hgrow₁ s).trans ((hcheck s).1.trans (hgrow₃ s))
  · rw [hrun, hps.scopes, hs₃, (hcheck s).2, hs₁, hp.outer]
    rfl
  · rw [hrun] at hclean ⊢
    simp only at hclean
    have hclean₂ : (s₂ s).bag = s.bag := prefix_antisymm ((hgrow₁ s).trans (hcheck s).1)
      (hclean ▸ hgrow₃ s)
    have hclean₁ : (s₁ s).bag = s.bag := prefix_antisymm (hgrow₁ s) (hclean₂ ▸ (hcheck s).1)
    obtain ⟨message, h⟩ | ⟨h, hlen⟩ := checkAlternative_cases span bound (s₁ s)
    · rw [hs₂, h, ← hclean₁] at hclean₂
      exact absurd hclean₂ (emit_ne _ _ _ _ _)
    rw [← hs₂] at h
    obtain ⟨he, hfound, -, hcounter⟩ := hp.run { s with scopes := preseed bound :: s.scopes }
      (by simp) (by rw [← hs₁]; exact hclean₁) (by rw [← hs₁, hlen]; simp [current, preseed])
    obtain ⟨he', hfound', hcounter'⟩ := hps.run (s₃ s) (by rw [hclean, hs₃]; exact hclean₂.symm)
    rw [← hs₁] at hcounter
    have hnames : ({ s with scopes := preseed bound :: s.scopes } : Desugar).current.map (·.names) =
        bound.map (·.names) := preseed_names bound
    refine ⟨?_, fun x hx => ?_, ?_⟩
    · rw [he, he', renameIn_congr hnames, mapNamesAll]
    · rcases List.mem_append.mp hx with hx | hx
      · exact found_congr hnames (hfound x hx)
      · exact hfound' x hx
    · rw [hcounter', hs₃, h]
      exact hcounter

theorem settled_nil {span : Span} {bound : List Binding} :
    Settled bound [] (visitAlternatives span bound []) :=
  ⟨grows_pure, fun _ => rfl, fun _ _ => ⟨rfl, by simp [bindersAll], rfl⟩⟩

/-- The visit of an or-pattern: an accepted one looks the later alternatives up in
the scope of the first and merges that scope. -/
theorem or_visit {span : Span} {first : Pattern} {rest : List Pattern}
    (hfirst : Steady (binders first) (fun g => mapNames g first) (visitPattern first))
    (hrest : ∀ bound, Settled bound rest (visitAlternatives span bound rest)) (s : Desugar)
    {r : Pattern × Desugar} (hr : visitPattern first { s with scopes := [] :: s.scopes } = r)
    {r' : Pattern × Desugar} (hr' : visitPattern (.or span (first :: rest)) s = r') :
    s.bag <+: r'.2.bag ∧ (∃ more, r'.2.scopes = s.scopes.modifyHead (· ++ more)) ∧
      (r'.2.bag = s.bag → r.2.bag = s.bag ∧
        r'.1 = .or span (r.1 :: mapNamesAll (renameIn r.2.current) rest) ∧
        (∀ x ∈ bindersAll rest, Found r.2.current x) ∧
        r'.2.scopes = s.scopes.modifyHead (· ++ r.2.current) ∧ r'.2.counter = r.2.counter) := by
  obtain ⟨t, ht⟩ : ∃ t, t = visitAlternatives span r.2.current rest
    { r.2 with scopes := r.2.scopes.tail } := ⟨_, rfl⟩
  have hrun : r' = (.or span (r.1 :: t.1), r.2.current.foldl (mergeBinding span) t.2) := by
    rw [← hr', ht, ← hr]
    rfl
  have hgrow₁ : s.bag <+: r.2.bag := hr ▸ hfirst.grows { s with scopes := [] :: s.scopes }
  have hgrow₂ : r.2.bag <+: t.2.bag :=
    ht ▸ (hrest r.2.current).grows { r.2 with scopes := r.2.scopes.tail }
  have hscopes : t.2.scopes = s.scopes := by
    rw [ht, (hrest _).scopes, ← hr]
    exact hfirst.outer { s with scopes := [] :: s.scopes }
  obtain ⟨hgrow₃, hcounter₃, ⟨more, hmore⟩, hmerged⟩ := mergeScope_spec span r.2.current t.2
  subst hrun
  refine ⟨hgrow₁.trans (hgrow₂.trans hgrow₃), ⟨more, by rw [← hscopes]; exact hmore⟩,
    fun hclean => ?_⟩
  have hclean₂ : t.2.bag = s.bag := prefix_antisymm (hgrow₁.trans hgrow₂) (hclean ▸ hgrow₃)
  have hclean₁ : r.2.bag = s.bag := prefix_antisymm hgrow₁ (hclean₂ ▸ hgrow₂)
  obtain ⟨he, hfound, hcounter⟩ := (hrest r.2.current).run { r.2 with scopes := r.2.scopes.tail }
    (by rw [← ht]; exact hclean₂.trans hclean₁.symm)
  rw [← ht] at he hcounter
  exact ⟨hclean₁, by rw [he], hfound, by rw [← hscopes]; exact hmerged (hclean.trans hclean₂.symm),
    hcounter₃.trans hcounter⟩

/-- The scope of an or-pattern is merged away, so it adds nothing only if its
alternatives bind nothing but keyword spellings. -/
theorem or_steady {span : Span} {first : Pattern} {rest : List Pattern}
    (hfirst : Steady (binders first) (fun g => mapNames g first) (visitPattern first))
    (hrest : ∀ bound, Settled bound rest (visitAlternatives span bound rest)) :
    Steady (binders (.or span (first :: rest))) (fun g => mapNames g (.or span (first :: rest)))
      (visitPattern (.or span (first :: rest))) := by
  have hvisit := fun s => or_visit hfirst hrest s rfl rfl
  refine ⟨fun s => (hvisit s).1, fun s => ?_, fun s => ?_, fun s => ?_, fun s hne hclean hlen => ?_⟩
  · obtain ⟨-, ⟨more, h⟩, -⟩ := hvisit s
    rw [h, List.tail_modifyHead]
  · obtain ⟨-, ⟨more, h⟩, -⟩ := hvisit s
    rw [h, List.length_modifyHead]
  · obtain ⟨-, ⟨more, h⟩, -⟩ := hvisit s
    rw [current, current, h]
    cases s.scopes with
    | nil => exact Nat.le_refl _
    | cons scope rest => simp
  · obtain ⟨hclean₁, he, hfound, hscopes, hcounter⟩ := (hvisit s).2.2 hclean
    -- nothing was merged, so the first alternative declared nothing in its own scope
    have hempty : (visitPattern first { s with scopes := [] :: s.scopes }).2.current = [] := by
      rw [current, hscopes] at hlen
      cases hs : s.scopes with
      | nil => exact absurd hs hne
      | cons scope rest =>
        rw [hs] at hlen
        simp only [List.modifyHead_cons, List.headD_cons, List.length_append, current, hs] at hlen
        exact List.eq_nil_of_length_eq_zero (by rw [current]; omega)
    obtain ⟨he₁, hfound₁, -, hcounter₁⟩ :=
      hfirst.run { s with scopes := [] :: s.scopes } (by simp) hclean₁ (by rw [hempty]; rfl)
    rw [hempty] at he hfound hscopes
    have hkey : ∀ x ∈ binders (.or span (first :: rest)), isKeywordName x = true := by
      intro x hx
      rw [binders, bindersAll] at hx
      rcases List.mem_append.mp hx with hx | hx
      · exact (hfound₁ x hx).resolve_right (by simp [current])
      · exact (hfound x hx).resolve_right (by simp)
    have hmap : mapNames (renameIn []) (.or span (first :: rest)) =
        mapNames (renameIn s.current) (.or span (first :: rest)) :=
      mapNames_congr _ fun x hx => by simp [renameIn, hkey x hx]
    refine ⟨?_, fun x hx => .inl (hkey x hx), ?_, hcounter.trans hcounter₁⟩
    · rw [he, he₁, ← hmap]
      rfl
    · rw [current, hscopes, modifyHead_nil]
      rfl

mutual

theorem visitPattern_steady : ∀ p : Pattern,
    Steady (binders p) (fun g => mapNames g p) (visitPattern p)
  | .wildcard _ => steady_pure fun _ => rfl
  | .literal _ _ => steady_pure fun _ => rfl
  | .ident _ name => ((declareNamed_steady name).map fun x => Ident.mk x name.span).map _
  | .mutIdent _ name => ((declareNamed_steady name).map fun x => Ident.mk x name.span).map _
  | .tuple _ _ elements => (visitPatterns_steady elements).map _
  | .struct _ _ fields => (visitFieldPatterns_steady fields).map _
  | .ref _ _ inner => (visitPattern_steady inner).map _
  | .or _ [] => steady_pure fun _ => rfl
  | .or _ (first :: rest) =>
    or_steady (visitPattern_steady first) fun bound => visitAlternatives_settled bound rest

theorem visitPatterns_steady : ∀ ps : List Pattern,
    Steady (bindersAll ps) (fun g => mapNamesAll g ps) (visitPatterns ps)
  | [] => steady_pure fun _ => rfl
  | p :: rest => (visitPattern_steady p).map₂ _ (visitPatterns_steady rest)

theorem visitFieldPatterns_steady : ∀ fs : List (Ident × Pattern),
    Steady (bindersFields fs) (fun g => mapNamesFields g fs) (visitFieldPatterns fs)
  | [] => steady_pure fun _ => rfl
  | (name, p) :: rest =>
    (visitPattern_steady p).map₂ (fun p rest => (name, p) :: rest) (visitFieldPatterns_steady rest)

theorem visitAlternatives_settled {span : Span} (bound : List Binding) : ∀ ps : List Pattern,
    Settled bound ps (visitAlternatives span bound ps)
  | [] => settled_nil
  | p :: rest => .cons (visitPattern_steady p) (visitAlternatives_settled bound rest)

end

/-! ## Visits that bind -/

theorem Binds.mono {q : Env → NM (α × Env)} {q' : α → Env → NM (α × Env)} {k' : Nat}
    (h : Binds k p₁ q q') (hk : k ≤ k') : Binds k' p₁ q q' := fun R => (h R).mono hk

theorem Keeps.mono {q : Env → NM α} {q' : α → Env → NM α} {k' : Nat} (h : Keeps k p₁ q q')
    (hk : k ≤ k') : Keeps k' p₁ q q' := fun R => (h R).mono hk

/-- Only a keyword spelling can be declared while it is visible. -/
theorem binder_fresh {R : Renaming} {env env' : Env} (h : Aligned R env env') {y : String}
    (hy : ∀ r ∈ R.flatten, r.2 ≠ y) : env'.binder y = none := by
  obtain ⟨L, hR, -, he'⟩ := h.flatten
  rw [binder_after he', Option.map_eq_none_iff, List.find?_eq_none]
  intro t ht htrue
  exact hy t.pair (by rw [hR]; exact List.mem_map_of_mem ht) (by simpa [Numbered.pair] using htrue)

theorem declareIdent_binds {name : Ident} (hx : Plain name.name) :
    Binds 1 (declareIdent name) (fun env => Scoping.bindName env name)
      fun name' env => Scoping.bindName env name' := by
  refine fun R => ⟨(declareNamed_steady name).grows.bind fun _ => grows_pure,
    fun s hs hk hclean => ?_⟩
  obtain ⟨y, hy, hcounter, hs', hnew⟩ := declareNamed_tracks hs hx hk hclean
  refine ⟨hcounter, _, hs', List.tail_modifyHead, fun env env' hal n n' hn hkey => ?_⟩
  have hname : (declareIdent name s).1 = ⟨y, name.span⟩ := by
    rw [← hy]
    rfl
  rw [hname]
  refine ⟨⟨?_, ?_⟩, congrArg (· + 1) hn, ?_⟩
  · simp [Scoping.bindName, Scoping.spell, hn]
  · simpa [Scoping.bindName, hn] using hal.declare name.name y n'.next
  · intro x hmem
    simp only [Scoping.bindName] at hmem
    rcases hnew with hkw | hnew
    · split at hmem
      · rcases List.mem_append.mp hmem with hmem | hmem
        · exact hkey x hmem
        · rw [List.mem_singleton.mp hmem]
          exact hkw
      · exact hkey x hmem
    · rw [binder_fresh hal hnew] at hmem
      exact hkey x hmem

theorem rename_tracked (scope : List (String × String)) (x : String) :
    rename scope x = renameIn ((tracked scope).map toBinding) x := by
  unfold rename renameIn
  rw [List.find?_map, Option.map_map]
  rfl

/-- The names of the later alternatives mean the same binders before and after. -/
theorem alternatives_renamed {scope : List (String × String)} {b b' : List (String × Nat)}
    {counter : Nat} (h : Aligned [scope] [b] [b']) (hs : ∀ r ∈ scope, Spelled counter r)
    (hd : ((tracked scope).map (·.2)).Nodup) {ps : List Pattern}
    (hx : ∀ x ∈ bindersAll ps, Plain x) :
    mapNamesAll (Env.spell [b]) ps = mapNamesAll (Env.spell [b'])
      (mapNamesAll (renameIn ((tracked scope).map toBinding)) ps) := by
  rw [mapNamesAll_mapNamesAll]
  refine mapNamesAll_congr ps fun x hmem => ?_
  have := spell_renamed h (by simpa using hs) (by simpa using hd) (hx x hmem)
  rw [this, ← rename_tracked]
  simp

theorem Aligned.head {scope : List (String × String)} {R : Renaming} {env env' : Env}
    (h : Aligned (scope :: R) env env') : Aligned [scope] [env.headD []] [env'.headD []] := by
  obtain ⟨T, hR, rfl, rfl⟩ := h
  cases T with
  | nil => cases hR
  | cons t T =>
    simp only [List.map_cons, List.cons.injEq] at hR
    exact ⟨[t], by simp [hR.1], rfl, rfl⟩

theorem Aligned.merge {scope : List (String × String)} {R : Renaming} {inner inner' env env' : Env}
    (h : Aligned (scope :: R) inner inner') (hal : Aligned R env env') :
    Aligned (R.modifyHead (· ++ scope)) (env.modifyHead (· ++ inner.headD []))
      (env'.modifyHead (· ++ inner'.headD [])) := by
  obtain ⟨T₁, hR, rfl, rfl⟩ := h
  obtain ⟨T, rfl, rfl, rfl⟩ := hal
  cases T₁ with
  | nil => cases hR
  | cons t T₁ =>
    simp only [List.map_cons, List.cons.injEq] at hR
    refine ⟨T.modifyHead (· ++ t), ?_⟩
    cases T <;> simp [hR.1]

/-- Merging a scope into the one around it loses no local. -/
theorem Tracks.merge {s s' : Desugar} {scope : List (String × String)} {R : Renaming}
    (h : Tracks s (scope :: R))
    (hscopes : s'.scopes = (R.map fun scope => (tracked scope).map toBinding).modifyHead
      (· ++ (tracked scope).map toBinding)) (hcounter : s'.counter = s.counter) :
    Tracks s' (R.modifyHead (· ++ scope)) := by
  cases R with
  | nil => exact ⟨hscopes, by simp, by simp⟩
  | cons top R =>
    have hperm : List.Perm (List.flatten ((top :: R).modifyHead (· ++ scope)))
        (scope :: top :: R).flatten := by
      have hcomm : List.Perm (top ++ scope) (scope ++ top) := List.perm_append_comm
      simpa using hcomm.append_right R.flatten
    refine ⟨by rw [hscopes]; simp, fun r hr => ?_, ?_⟩
    · rw [hcounter]
      exact h.spelled r (hperm.mem_iff.mp hr)
    · exact ((hperm.filter _).map _).nodup_iff.mpr h.distinct

theorem or_binds {span : Span} {first : Pattern} {rest : List Pattern} {k : Nat}
    (hfirst : Binds k (visitPattern first) (fun env => Scoping.namePattern env first)
      fun p env => Scoping.namePattern env p)
    (hx : ∀ x ∈ bindersAll rest, Plain x) :
    Binds k (visitPattern (.or span (first :: rest)))
      (fun env => Scoping.namePattern env (.or span (first :: rest)))
      fun p env => Scoping.namePattern env p := by
  refine fun R => ⟨(visitPattern_steady _).grows, fun s hs hk hclean => ?_⟩
  obtain ⟨r, hr⟩ : ∃ r, visitPattern first { s with scopes := [] :: s.scopes } = r := ⟨_, rfl⟩
  obtain ⟨hclean₁, he, hfound, hscopes, hcounter⟩ :=
    (or_visit (visitPattern_steady first) (fun b => visitAlternatives_settled b rest) s hr rfl).2.2
      hclean
  have hrun := (hfirst ([] :: R)).run { s with scopes := [] :: s.scopes } hs.push hk
    (by rw [hr]; exact hclean₁)
  rw [hr] at hrun
  obtain ⟨hcounter₁, R₁, hs₁, htail, hagree⟩ := hrun
  -- the renaming of the first alternative's own scope
  obtain ⟨scope, rfl⟩ : ∃ scope, R₁ = scope :: R := by
    have hlen : R₁.length = R.length + 1 := by
      have := (visitPattern_steady first).count { s with scopes := [] :: s.scopes }
      rw [hr, hs₁.scopes] at this
      simpa [hs.scopes] using this
    cases R₁ with
    | nil => cases hlen
    | cons scope R₁ => exact ⟨scope, congrArg (scope :: ·) htail⟩
  have hcurrent : r.2.current = (tracked scope).map toBinding := by rw [current, hs₁.scopes]; rfl
  refine ⟨by rw [hcounter]; exact hcounter₁, R.modifyHead (· ++ scope), ?_, List.tail_modifyHead, ?_⟩
  · exact hs₁.merge (by rw [hscopes, hcurrent, hs.scopes]) hcounter
  · intro env env' hal
    rw [he, hcurrent]
    refine (hagree _ _ hal.push).bind fun x x' hinner => .pure ⟨?_, hinner.2.merge hal⟩
    rw [hinner.1, alternatives_renamed hinner.2.head
      (fun t ht => hs₁.spelled t (by simp [ht])) (hs₁.distinct.sublist ?_) hx]
    exact ((List.sublist_append_left _ _).filter _).map _

mutual

theorem visitPattern_binds : ∀ p : Pattern, (∀ x ∈ binders p, Plain x) →
    Binds (binders p).length (visitPattern p) (fun env => Scoping.namePattern env p)
      fun p env => Scoping.namePattern env p
  | .wildcard _, _ => binds_pure (fun _ => rfl) fun _ => rfl
  | .literal _ _, _ => binds_pure (fun _ => rfl) fun _ => rfl
  | .ident _ name, hx =>
    (declareIdent_binds (hx name.name (by simp [binders]))).map _ (fun _ => rfl) fun _ _ => rfl
  | .mutIdent _ name, hx =>
    (declareIdent_binds (hx name.name (by simp [binders]))).map _ (fun _ => rfl) fun _ _ => rfl
  | .tuple _ _ elements, hx =>
    (visitPatterns_binds elements hx).map _ (fun _ => rfl) fun _ _ => rfl
  | .struct _ _ fields, hx =>
    (visitFieldPatterns_binds fields hx).map _ (fun _ => rfl) fun _ _ => rfl
  | .ref _ _ inner, hx => (visitPattern_binds inner hx).map _ (fun _ => rfl) fun _ _ => rfl
  | .or _ [], _ => binds_pure (fun _ => rfl) fun _ => rfl
  | .or _ (first :: rest), hx =>
    (or_binds (visitPattern_binds first fun x h => hx x (by simp [binders, bindersAll, h]))
      fun x h => hx x (by simp [binders, bindersAll, h])).mono (by simp [binders, bindersAll])

theorem visitPatterns_binds : ∀ ps : List Pattern, (∀ x ∈ bindersAll ps, Plain x) →
    Binds (bindersAll ps).length (visitPatterns ps) (fun env => Scoping.namePatterns env ps)
      fun ps env => Scoping.namePatterns env ps
  | [], _ => binds_pure (fun _ => rfl) fun _ => rfl
  | p :: rest, hx =>
    ((visitPattern_binds p fun x h => hx x (by simp [bindersAll, h])).map₂ _
      (visitPatterns_binds rest fun x h => hx x (by simp [bindersAll, h])) (fun _ => rfl)
      fun _ _ _ => rfl).mono (by simp [bindersAll])

theorem visitFieldPatterns_binds : ∀ fs : List (Ident × Pattern),
    (∀ x ∈ bindersFields fs, Plain x) →
    Binds (bindersFields fs).length (visitFieldPatterns fs)
      (fun env => Scoping.nameFieldPatterns env fs) fun fs env => Scoping.nameFieldPatterns env fs
  | [], _ => binds_pure (fun _ => rfl) fun _ => rfl
  | (name, p) :: rest, hx =>
    ((visitPattern_binds p fun x h => hx x (by simp [bindersFields, h])).map₂
      (fun p rest => (name, p) :: rest)
      (visitFieldPatterns_binds rest fun x h => hx x (by simp [bindersFields, h])) (fun _ => rfl)
      fun _ _ _ => rfl).mono (by simp [bindersFields])

end

end Alcy.Parser
