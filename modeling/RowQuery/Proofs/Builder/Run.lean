import RowQuery.Proofs.Builder.Step

/-!
# Accepted lists of directives

What a whole run of a builder keeps and what it leads to. Every accepted directive is valid where it
stands, and the result is what the directives say: the declared relations are `declareAll` and the
predicate is `outcome`.
-/

namespace RowQuery

/-! ### The predicate that directives say -/

/-- The predicate of a list of directives after a conjunction. -/
def outcome (t : PredicateTree) (ds : List Directive) : Predicate :=
  if ds.any Directive.isOr then .any (alternatives t ds) else .all (t.conjoinAll ds)

@[simp] theorem outcome_nil (t : PredicateTree) : outcome t [] = .all t := rfl

theorem outcome_cons {d : Directive} (hd : d.isOr = false) (t : PredicateTree)
    (ds : List Directive) : outcome t (d :: ds) = outcome (d.conjoin t) ds := by
  rw [outcome, List.any_cons, hd, Bool.false_or, alternatives_cons hd, PredicateTree.conjoinAll]
  rfl

theorem outcome_or (t : PredicateTree) (branches : List (List Directive)) (ds : List Directive) :
    outcome t (.or branches :: ds) = .any (branchAlternatives t branches) := rfl

theorem outcome_eq_all_iff {t u : PredicateTree} {ds : List Directive} :
    outcome t ds = .all u ↔ Conjunctive ds ∧ t.conjoinAll ds = u := by
  have hor : Conjunctive ds ↔ ds.any Directive.isOr = false := by
    simp [Conjunctive]
  rw [hor, outcome]
  cases ds.any Directive.isOr <;> simp

theorem alternatives_outcome (t : PredicateTree) (ds : List Directive) :
    (outcome t ds).alternatives = alternatives t ds := by
  by_cases h : ds.any Directive.isOr = true
  · rw [outcome, if_pos h]
    rfl
  · have hconj : Conjunctive ds := by simpa [Conjunctive] using h
    rw [outcome, if_neg h, alternatives_of_conjunctive hconj]
    rfl

namespace Builder

variable {σ : Schema} {b b' : Builder σ}

/-! ### Fresh builders -/

theorem new_eq_ok {entity : String} :
    new σ entity = .ok b ↔
      ∃ s h, σ.shape? entity = some s ∧ b = start s h .root := by
  unfold new
  constructor
  · intro hb
    split at hb
    · rename_i s hs
      cases hb
      exact ⟨s, _, hs, rfl⟩
    · cases hb
  · rintro ⟨s, h, hs, rfl⟩
    split
    · rename_i s' hs'
      rw [hs] at hs'
      cases hs'
      rfl
    · rename_i hs'
      rw [hs] at hs'
      cases hs'

/-- A run that can be computed is had together with what holds of its ends. -/
theorem exists_run {entity : String} {ds : List Directive} {P : Builder σ → Builder σ → Prop}
    (hrun : (new σ entity >>= (·.applyAll ds)).toOption.isSome = true)
    (h : ∀ b₀ b, new σ entity = .ok b₀ → b₀.applyAll ds = .ok b → P b₀ b) :
    ∃ b₀ b, new σ entity = .ok b₀ ∧ b₀.applyAll ds = .ok b ∧ P b₀ b := by
  obtain ⟨b, hb⟩ := exists_ok_of_isSome hrun
  obtain ⟨b₀, h₀, hds⟩ := bind_eq_ok.1 hb
  exact ⟨b₀, b, h₀, hds, h b₀ b h₀ hds⟩

/-! ### Closed chains -/

theorem SameFilter.refl (b : Builder σ) : SameFilter b b := ⟨rfl, rfl, rfl, rfl, rfl⟩

theorem SameFilter.trans {b₁ b₂ b₃ : Builder σ} (h : SameFilter b₁ b₂) (h' : SameFilter b₂ b₃) :
    SameFilter b₁ b₃ :=
  ⟨h'.shape.trans h.shape, h'.scope.trans h.scope, h'.stage.trans h.stage,
    h'.entity.trans h.entity, h'.predicate.trans h.predicate⟩

theorem applyAll_cons_eq_ok {d : Directive} {ds : List Directive} :
    b.applyAll (d :: ds) = .ok b' ↔ ∃ b₁, b.apply d = .ok b₁ ∧ b₁.applyAll ds = .ok b' := by
  rw [applyAll, bind_eq_ok]

theorem applyAll_singleton (d : Directive) : b.applyAll [d] = b.apply d := by
  rw [applyAll]
  cases b.apply d <;> rfl

/-- Every directive but a shaping step asks for an open chain. -/
theorem accepting_of_apply {d : Directive} (hd : d.isShaping = false) (h : b.apply d = .ok b') :
    b.stage = .accepting := by
  cases d with
  | filter path f =>
    rcases filter_eq_ok.1 h with ⟨_, hs, _⟩ | ⟨c, _, h⟩
    · exact hs
    · exact (write_eq_ok.1 h).1
  | oneOf path vs =>
    obtain ⟨_, b₁, h, _⟩ := oneOf_eq_ok.1 h
    exact (write_eq_ok.1 h).1
  | join relation ds =>
    rw [apply] at h
    obtain ⟨⟨p, sub⟩, h, _⟩ := bind_eq_ok.1 h
    exact (joinScope_eq_ok.1 h).1
  | or branches =>
    rw [apply] at h
    obtain ⟨subs, _, h⟩ := bind_eq_ok.1 h
    exact (or_eq_ok.1 h).1
  | shape step => cases hd

/-- A closed chain takes shaping steps only, and keeps its conditions. -/
theorem sameFilter_of_closed {ds : List Directive} (hs : b.stage ≠ .accepting)
    (h : b.applyAll ds = .ok b') : SameFilter b b' ∧ ∀ d ∈ ds, d.isShaping = true := by
  induction ds generalizing b with
  | nil =>
    cases h
    exact ⟨.refl _, nofun⟩
  | cons d ds ih =>
    obtain ⟨b₁, hd, hrest⟩ := applyAll_cons_eq_ok.1 h
    by_cases hshape : d.isShaping = true
    · cases d with
      | shape step =>
        have hsame : SameFilter b b₁ := sameFilter_of_shaped hd
        obtain ⟨hsame', hall⟩ := ih (by rwa [hsame.stage]) hrest
        exact ⟨hsame.trans hsame', List.forall_mem_cons.2 ⟨rfl, hall⟩⟩
      | _ => cases hshape
    · exact absurd (accepting_of_apply (by simpa using hshape) hd) hs

/-! ### Induction along a run -/

/-- Induction along an accepted list of directives. The runs of sub-queries are given by the motive
again, from the sub-query that the join or the branch is handed. -/
@[elab_as_elim]
theorem applyAll_induction {motive : Builder σ → List Directive → Builder σ → Prop}
    (nil : ∀ b, motive b [] b)
    (skip : ∀ b path f ds b', f.condition? = .ok none → b.stage = .accepting → motive b ds b' →
      motive b (.filter path f :: ds) b')
    (filter : ∀ b path f c b₁ ds b', f.condition? = .ok (some c) →
      b.write f.call path c = .ok b₁ → motive b₁ ds b' → motive b (.filter path f :: ds) b')
    (oneOf : ∀ b path vs b₁ ds b', b.oneOf path vs = .ok b₁ → b₁.applyAll ds = .ok b' →
      motive b₁ ds b' → motive b (.oneOf path vs :: ds) b')
    (join : ∀ b relation js p sub sub' b₁ ds b', b.joinScope relation = .ok (p, sub) →
      motive sub js sub' → b.join p sub' = .ok b₁ → motive b₁ ds b' →
      motive b (.join relation js :: ds) b')
    (or : ∀ b branches seed subs b₁ ds b', b.branchScope = .ok seed →
      List.Forall₂ (motive seed) branches subs → b.or subs = .ok b₁ → b₁.applyAll ds = .ok b' →
      motive b₁ ds b' → motive b (.or branches :: ds) b')
    (shape : ∀ b step b₁ ds b', b.shaped step = .ok b₁ → motive b₁ ds b' →
      motive b (.shape step :: ds) b')
    {b b' : Builder σ} {ds : List Directive} (h : b.applyAll ds = .ok b') : motive b ds b' := by
  -- a directive is good if it can stand before any run
  let Good (d : Directive) : Prop := ∀ b b₁ ds b', b.apply d = .ok b₁ →
    b₁.applyAll ds = .ok b' → motive b₁ ds b' → motive b (d :: ds) b'
  have run : ∀ ds, (∀ d ∈ ds, Good d) → ∀ b b', b.applyAll ds = .ok b' → motive b ds b' := by
    intro ds hgood
    induction ds with
    | nil =>
      intro b b' h
      cases h
      exact nil b
    | cons d ds ih =>
      intro b b' h
      obtain ⟨b₁, hd, h⟩ := applyAll_cons_eq_ok.1 h
      obtain ⟨hgood, hrest⟩ := List.forall_mem_cons.1 hgood
      exact hgood b b₁ ds b' hd h (ih hrest b₁ b' h)
  have good : ∀ d, Good d := by
    intro d
    induction d using Directive.induction with
    | filter path f =>
      intro b b₁ ds b' hd _ ih
      rcases filter_eq_ok.1 hd with ⟨hc, hs, rfl⟩ | ⟨c, hc, hw⟩
      · exact skip _ path f ds b' hc hs ih
      · exact filter b path f c b₁ ds b' hc hw ih
    | oneOf path vs => exact fun b b₁ ds b' hd h ih => oneOf b path vs b₁ ds b' hd h ih
    | join relation js hjs =>
      intro b b₁ ds b' hd _ ih
      rw [apply] at hd
      obtain ⟨⟨p, sub⟩, hsub, hd⟩ := bind_eq_ok.1 hd
      obtain ⟨sub', hrun, hjoin⟩ := bind_eq_ok.1 hd
      exact join b relation js p sub sub' b₁ ds b' hsub (run js hjs sub sub' hrun) hjoin ih
    | or branches hbranches =>
      intro b b₁ ds b' hd h ih
      rw [apply] at hd
      obtain ⟨subs, hsubs, hor⟩ := bind_eq_ok.1 hd
      have hruns := applyBranches_eq_ok.1 hsubs
      -- there is a branch, so the seed that the branches share can be had
      obtain ⟨seed, hseed⟩ : ∃ seed, b.branchScope = .ok seed := by
        cases hruns with
        | nil => exact absurd rfl (or_eq_ok.1 hor).2.1
        | cons hrun _ => exact ⟨_, hrun.choose_spec.1⟩
      refine or b branches seed subs b₁ ds b' hseed ?_ hor h ih
      refine ((List.forall₂_and_left _ _).2 ⟨hbranches, hruns⟩).imp ?_
      rintro ds sub ⟨hds, seed', hseed', hrun⟩
      rw [hseed] at hseed'
      cases hseed'
      exact run ds hds seed sub hrun
    | shape step => exact fun b b₁ ds b' hd _ ih => shape b step b₁ ds b' hd ih
  exact run ds (fun d _ => good d) b b' h

/-! ### What a run leads to -/

/-- The directives lead from one builder to another: they are valid where they stand, the declared
relations and the predicate are what they say, and the entity and the scope stay. -/
structure Ran (b : Builder σ) (ds : List Directive) (b' : Builder σ) : Prop where
  shape : b'.shape = b.shape
  scope : b'.scope = b.scope
  entity : b'.spec.entity = b.spec.entity
  valid : Directive.AllValid σ b.shape ds
  relations : b'.spec.relations = b.spec.relations.declareAll ds
  predicate : ∀ t, b.spec.predicate = .all t → b'.spec.predicate = outcome t ds

theorem Ran.cons {b₁ : Builder σ} {d : Directive} {ds : List Directive} (hd : d.isOr = false)
    (h : Ran b [d] b₁) (h' : Ran b₁ ds b') : Ran b (d :: ds) b' where
  shape := h'.shape.trans h.shape
  scope := h'.scope.trans h.scope
  entity := h'.entity.trans h.entity
  valid := ⟨h.valid.1, h.shape ▸ h'.valid⟩
  relations := by rw [h'.relations, h.relations]; rfl
  predicate t ht := by
    have h₁ := h.predicate t ht
    rw [outcome_cons hd, outcome_nil] at h₁
    rw [h'.predicate _ h₁, outcome_cons hd]

/-- After alternatives only shaping steps follow, which change no condition. -/
theorem Ran.cons_or {b₁ : Builder σ} {branches : List (List Directive)} {ds : List Directive}
    (h : Ran b [.or branches] b₁) (h' : Ran b₁ ds b') (hsame : SameFilter b₁ b') :
    Ran b (.or branches :: ds) b' where
  shape := h'.shape.trans h.shape
  scope := h'.scope.trans h.scope
  entity := h'.entity.trans h.entity
  valid := ⟨h.valid.1, h.shape ▸ h'.valid⟩
  relations := by rw [h'.relations, h.relations]; rfl
  predicate t ht := by rw [hsame.predicate, h.predicate t ht, outcome_or, outcome_or]

theorem ran_of_write {call : Call} {path : String} {c : Condition}
    (h : b.write call path c = .ok b') {d : Directive} (hor : d.isOr = false)
    (hvalid : Resolves σ b.shape path → d.Valid σ b.shape)
    (hconj : ∀ t, d.conjoin t = t.merge (.atPath (dotPieces path) c))
    (hdecl : ∀ r, d.declare r = r.merge (.atPath (dotPieces path).dropLast .load)) :
    Ran b [d] b' := by
  obtain ⟨_, p, hp, hr, t, ht, rfl⟩ := write_eq_ok.1 h
  have hseg : p.segments = dotPieces path := FieldPath.parse_eq_ok.1 hp
  obtain ⟨r, hr⟩ := hr
  refine ⟨rfl, rfl, rfl, ⟨hvalid ⟨p, r, hp, hr⟩, trivial⟩, ?_, fun t' ht' => ?_⟩
  · rw [RelationTree.declareAll, RelationTree.declareAll, hdecl, ← hseg]
    rfl
  · rw [ht] at ht'
    cases ht'
    rw [outcome_cons hor, outcome_nil, hconj, ← hseg]
    rfl

theorem ran_of_filter {path : String} {f : Filter} {c : Condition}
    (hc : f.condition? = .ok (some c)) (h : b.write f.call path c = .ok b') :
    Ran b [.filter path f] b' := by
  have hadd : f.added? = some c := Filter.added?_of_condition? hc
  refine ran_of_write h rfl (fun hr => ⟨Filter.condition?_eq_ok.1 ⟨_, hc⟩, fun _ => hr⟩) ?_ ?_
  · intro t
    rw [Directive.conjoin, hadd, Option.elim_some]
  · intro r
    rw [Directive.declare, hadd, Option.isSome_some, if_pos rfl]

theorem ran_of_skip {path : String} {f : Filter} (hc : f.condition? = .ok none) :
    Ran b [.filter path f] b := by
  have hadd : f.added? = none := Filter.added?_of_condition? hc
  have hvalid : f.Valid σ b.shape path :=
    ⟨Filter.condition?_eq_ok.1 ⟨_, hc⟩, fun hne => absurd hc hne⟩
  refine ⟨rfl, rfl, rfl, ⟨hvalid, trivial⟩, ?_, fun t ht => ?_⟩
  · rw [RelationTree.declareAll, RelationTree.declareAll, Directive.declare, hadd]
    rfl
  · rw [ht, outcome_cons rfl, outcome_nil, Directive.conjoin, hadd]
    rfl

theorem ran_of_oneOf {path : String} {vs : List Value} (h : b.oneOf path vs = .ok b') :
    Ran b [.oneOf path vs] b' := by
  obtain ⟨_, b₁, hw, rfl⟩ := oneOf_eq_ok.1 h
  have hran : Ran b [.oneOf path vs] b₁ :=
    ran_of_write hw rfl (fun hr => hr) (fun _ => rfl) (fun _ => rfl)
  exact ⟨hran.shape, hran.scope, hran.entity, hran.valid, hran.relations, hran.predicate⟩

theorem ran_of_shaped {step : Shaping} (h : b.shaped step = .ok b') :
    Ran b [.shape step] b' := by
  obtain ⟨hvalid, rfl⟩ := shaped_eq_ok.1 h
  refine ⟨rfl, rfl, step.entity_reshape b.spec, ⟨hvalid, trivial⟩,
    step.relations_reshape b.spec, fun t ht => ?_⟩
  rw [step.predicate_reshape, ht]
  rfl

theorem ran_of_join {relation : String} {js : List Directive} {p : FieldPath}
    {sub sub' : Builder σ} (hsub : b.joinScope relation = .ok (p, sub)) (hrun : Ran sub js sub')
    (h : b.join p sub' = .ok b') : Ran b [.join relation js] b' := by
  obtain ⟨_, hp, s, _, hs, rfl⟩ := joinScope_eq_ok.1 hsub
  obtain ⟨_, _, _, u, hu, h⟩ := join_eq_ok.1 h
  have hseg : p.segments = dotPieces relation := FieldPath.parse_eq_ok.1 hp
  have hrel : sub'.spec.relations = RelationTree.declareAll [] js := hrun.relations
  have hall : outcome [] js = .all u := by rw [← hu, hrun.predicate [] rfl]
  have hconj : PredicateTree.conjoinAll [] js = u := (outcome_eq_all_iff.1 hall).2
  have hdecl : Directive.declare b.spec.relations (.join relation js) =
      b.spec.relations.merge (p.declarationWith (.above sub'.spec.relations)) := by
    rw [Directive.declare, ← hseg, hrel]
    rfl
  have hvalid : Directive.Valid σ b.shape (.join relation js) := ⟨s, ⟨p, hp, hs⟩, hrun.valid⟩
  rcases h with ⟨rfl, rfl⟩ | ⟨hne, t, ht, rfl⟩
  · refine ⟨rfl, rfl, rfl, ⟨hvalid, trivial⟩, hdecl.symm, fun t ht => ?_⟩
    rw [outcome_cons rfl, outcome_nil, Directive.conjoin, hconj, if_pos List.isEmpty_nil]
    exact ht
  · refine ⟨rfl, rfl, rfl, ⟨hvalid, trivial⟩, hdecl.symm, fun t' ht' => ?_⟩
    rw [ht] at ht'
    cases ht'
    rw [outcome_cons rfl, outcome_nil, Directive.conjoin, hconj, if_neg (by simpa using hne),
      ← hseg]
    rfl

theorem declareBranches_eq_foldl {seed : Builder σ} (hseed : seed.spec.relations = [])
    {branches : List (List Directive)} {subs : List (Builder σ)}
    (h : List.Forall₂ (Ran seed) branches subs) (r : RelationTree) :
    subs.foldl (fun r sub => r.merge sub.spec.relations) r = r.declareBranches branches := by
  induction h generalizing r with
  | nil => rfl
  | cons hran _ ih =>
    rw [List.foldl_cons, RelationTree.declareBranches, ih, hran.relations, hseed]

theorem branchAlternatives_eq_of_ran {seed : Builder σ} {t : PredicateTree}
    (hseed : seed.spec.predicate = .all t) {branches : List (List Directive)}
    {subs : List (Builder σ)} (h : List.Forall₂ (Ran seed) branches subs) :
    subs.flatMap (fun sub => sub.spec.predicate.alternatives) = branchAlternatives t branches := by
  induction h with
  | nil => rfl
  | cons hran _ ih =>
    rw [List.flatMap_cons, branchAlternatives, ih, hran.predicate t hseed, alternatives_outcome]

theorem branchesValid_of_ran {seed : Builder σ} {branches : List (List Directive)}
    {subs : List (Builder σ)} (h : List.Forall₂ (Ran seed) branches subs) :
    Directive.BranchesValid σ seed.shape branches := by
  induction h with
  | nil => trivial
  | cons hran _ ih => exact ⟨hran.valid, ih⟩

theorem ran_of_or {seed : Builder σ} {branches : List (List Directive)} {subs : List (Builder σ)}
    (hseed : b.branchScope = .ok seed) (hruns : List.Forall₂ (Ran seed) branches subs)
    (h : b.or subs = .ok b') : Ran b [.or branches] b' := by
  obtain ⟨_, t, ht, rfl⟩ := branchScope_eq_ok.1 hseed
  obtain ⟨_, _, _, rfl⟩ := or_eq_ok.1 h
  have hvalid := branchesValid_of_ran hruns
  refine ⟨rfl, rfl, rfl, ⟨hvalid, trivial⟩, declareBranches_eq_foldl rfl hruns _, fun t' ht' => ?_⟩
  rw [ht] at ht'
  cases ht'
  rw [outcome_or, ← branchAlternatives_eq_of_ran rfl hruns]

/-- Every accepted list of directives is valid and leads to what it says. -/
theorem ran_of_applyAll {ds : List Directive} (h : b.applyAll ds = .ok b') : Ran b ds b' := by
  refine applyAll_induction ?nil ?skip ?filter ?oneOf ?join ?or ?shape h
  case nil => exact fun b => ⟨rfl, rfl, rfl, trivial, rfl, fun _ ht => ht⟩
  case skip => exact fun b path f ds b' hc _ ih => .cons rfl (ran_of_skip hc) ih
  case filter => exact fun b path f c b₁ ds b' hc h ih => .cons rfl (ran_of_filter hc h) ih
  case oneOf => exact fun b path vs b₁ ds b' h _ ih => .cons rfl (ran_of_oneOf h) ih
  case join =>
    intro b relation js p sub sub' b₁ ds b' hsub hrun h ih
    exact .cons rfl (ran_of_join hsub hrun h) ih
  case or =>
    intro b branches seed subs b₁ ds b' hseed hruns h hrest ih
    have hclosed : b₁.stage ≠ .accepting := by
      rw [stage_of_or h]
      simp
    exact .cons_or (ran_of_or hseed hruns h) ih (sameFilter_of_closed hclosed hrest).1
  case shape => exact fun b step b₁ ds b' h ih => .cons rfl (ran_of_shaped h) ih

end Builder

end RowQuery
