import Mathlib.Data.List.Forall2
import RowQuery.Builder.Stage
import RowQuery.Proofs.Directive.Valid

/-!
# What a step of a builder does

One equivalence for each step says when it is accepted and which builder it leads to. Everything
that is known of accepted steps is read off these.
-/

namespace RowQuery

namespace Builder

variable {σ : Schema} {b b' : Builder σ}

/-- The builder with another conjunction. -/
def withTree (b : Builder σ) (t : PredicateTree) : Builder σ :=
  { b with spec := { b.spec with predicate := .all t } }

theorem declare_nil (b : Builder σ) : b.declare [] = b := by
  simp [declare]

/-! ### Conditions -/

theorem ensureOpen_eq_ok {call : Call} {u : Unit} :
    b.ensureOpen call = .ok u ↔ b.stage = .accepting := by
  unfold ensureOpen
  cases b.stage <;> simp

theorem tree_eq_ok {call : Call} {t : PredicateTree} :
    b.tree call = .ok t ↔ b.spec.predicate = .all t := by
  unfold tree
  cases b.spec.predicate <;> simp

theorem mergeTree_eq_ok {call : Call} {u : PredicateTree} :
    b.mergeTree call u = .ok b' ↔
      ∃ t, b.spec.predicate = .all t ∧ b' = b.withTree (t.merge u) := by
  simp only [mergeTree, bind_eq_ok, tree_eq_ok]
  constructor
  · rintro ⟨t, ht, h⟩
    cases h
    exact ⟨t, ht, rfl⟩
  · rintro ⟨t, ht, rfl⟩
    exact ⟨t, ht, rfl⟩

/-- The relations that a path goes through are declared by its hops. -/
theorem declare_relationPrefix? (b : Builder σ) (p : FieldPath) :
    (match p.relationPrefix? with
      | some relation => b.declare relation.declaration
      | none => b) = b.declare (.atPath p.hops .load) := by
  rw [FieldPath.relationPrefix?_eq]
  by_cases h : p.hops ≠ []
  · rw [dif_pos h]
    rfl
  · rw [dif_neg h, not_not.1 h]
    exact (declare_nil b).symm

theorem write_eq_ok {call : Call} {raw : String} {c : Condition} :
    b.write call raw c = .ok b' ↔
      b.stage = .accepting ∧ ∃ p, FieldPath.parse raw = .ok p ∧
        (∃ r, p.resolve σ b.shape = .ok r) ∧
        ∃ t, b.spec.predicate = .all t ∧
          b' = (b.declare (.atPath p.hops .load)).withTree (t.merge (p.predicate c)) := by
  have hdeclare (p : FieldPath) :=
    congrArg (fun b₁ : Builder σ => b₁.mergeTree call (p.predicate c)) (declare_relationPrefix? b p)
  simp only [write, bind_eq_ok, ensureOpen_eq_ok]
  constructor
  · rintro ⟨_, hs, p, hp, r, hr, h⟩
    obtain ⟨t, ht, rfl⟩ := mergeTree_eq_ok.1 ((hdeclare p).symm.trans h)
    exact ⟨hs, p, hp, ⟨r, hr⟩, t, ht, rfl⟩
  · rintro ⟨hs, p, hp, ⟨r, hr⟩, t, ht, rfl⟩
    exact ⟨(), hs, p, hp, r, hr, (hdeclare p).trans (mergeTree_eq_ok.2 ⟨t, ht, rfl⟩)⟩

/-- A filter that adds no condition still asks for an open chain. -/
theorem filter_eq_ok {path : String} {f : Filter} :
    b.filter path f = .ok b' ↔
      f.condition? = .ok none ∧ b.stage = .accepting ∧ b' = b ∨
      ∃ c, f.condition? = .ok (some c) ∧ b.write f.call path c = .ok b' := by
  simp only [filter, bind_eq_ok]
  constructor
  · rintro ⟨c?, hc, h⟩
    cases c? with
    | none =>
      obtain ⟨_, hs, h⟩ := bind_eq_ok.1 h
      cases h
      exact .inl ⟨hc, ensureOpen_eq_ok.1 hs, rfl⟩
    | some c => exact .inr ⟨c, hc, h⟩
  · rintro (⟨hc, hs, rfl⟩ | ⟨c, hc, h⟩)
    · exact ⟨none, hc, bind_eq_ok.2 ⟨(), ensureOpen_eq_ok.2 hs, rfl⟩⟩
    · exact ⟨some c, hc, h⟩

theorem oneOf_eq_ok {path : String} {vs : List Value} :
    b.oneOf path vs = .ok b' ↔
      b.scope = .root ∧
        ∃ b₁, b.write .whereIn path (.op (.oneOf vs)) = .ok b₁ ∧ b' = b₁.close .whereIn := by
  simp only [oneOf, bind_eq_ok, ensureOpen_eq_ok]
  constructor
  · rintro ⟨_, hs, h⟩
    cases hscope : b.scope with
    | join _ => simp only [hscope] at h; cases h
    | branch => simp only [hscope] at h; cases h
    | root =>
      simp only [hscope] at h
      obtain ⟨b₁, hb₁, h⟩ := bind_eq_ok.1 h
      cases h
      exact ⟨rfl, b₁, hb₁, rfl⟩
  · rintro ⟨hscope, b₁, hb₁, rfl⟩
    refine ⟨(), (write_eq_ok.1 hb₁).1, ?_⟩
    simp only [hscope]
    exact bind_eq_ok.2 ⟨b₁, hb₁, rfl⟩

/-! ### Joins -/

theorem joinScope_eq_ok {relation : String} {p : FieldPath} :
    b.joinScope relation = .ok (p, b') ↔
      b.stage = .accepting ∧ FieldPath.parse relation = .ok p ∧
        ∃ s h, p.resolveRelations σ b.shape = .ok s ∧ b' = start s h (.join p) := by
  simp only [joinScope, bind_eq_ok, ensureOpen_eq_ok]
  constructor
  · rintro ⟨_, hs, p', hp, h⟩
    split at h
    · rename_i s hr
      cases h
      exact ⟨hs, hp, s, _, hr, rfl⟩
    · cases h
  · rintro ⟨hs, hp, s, _, hr, rfl⟩
    refine ⟨(), hs, p, hp, ?_⟩
    split
    · rename_i s' hr'
      rw [hr] at hr'
      cases hr'
      rfl
    · rename_i hr'
      rw [hr] at hr'
      cases hr'

/-- An accepted join declares its relation, with what its sub-query declares below it, and puts the
conditions of the sub-query under it if there are any. -/
theorem join_eq_ok {p : FieldPath} {sub : Builder σ} :
    b.join p sub = .ok b' ↔
      b.stage = .accepting ∧ p.resolveRelations σ b.shape = .ok sub.shape ∧ sub.scope = .join p ∧
        ∃ u, sub.spec.predicate = .all u ∧
          (u = [] ∧ b' = b.declare (p.declarationWith (.above sub.spec.relations)) ∨
            u ≠ [] ∧ ∃ t, b.spec.predicate = .all t ∧
              b' = (b.declare (p.declarationWith (.above sub.spec.relations))).withTree
                (t.merge (p.predicate (.nested u)))) := by
  simp only [join, bind_eq_ok, ensureOpen_eq_ok, refuseIf_eq_ok, not_or, not_not]
  constructor
  · rintro ⟨_, hs, s, hr, _, ⟨hscope, rfl⟩, h⟩
    refine ⟨hs, hr, hscope, ?_⟩
    cases hu : sub.spec.predicate with
    | any _ => simp only [hu] at h; cases h
    | all u =>
      simp only [hu] at h
      refine ⟨u, rfl, ?_⟩
      cases u with
      | nil => cases h; exact .inl ⟨rfl, rfl⟩
      | cons e u =>
        obtain ⟨t, ht, rfl⟩ := mergeTree_eq_ok.1 h
        exact .inr ⟨List.cons_ne_nil _ _, t, ht, rfl⟩
  · rintro ⟨hs, hr, hscope, u, hu, h⟩
    refine ⟨(), hs, sub.shape, hr, (), ⟨hscope, rfl⟩, ?_⟩
    simp only [hu]
    rcases h with ⟨rfl, rfl⟩ | ⟨hne, t, ht, rfl⟩
    · rfl
    · have hempty : u.isEmpty = false := by simpa using hne
      rw [if_neg (by simp [hempty])]
      exact mergeTree_eq_ok.2 ⟨t, ht, rfl⟩

/-! ### Alternatives -/

theorem branchScope_eq_ok :
    b.branchScope = .ok b' ↔
      b.stage = .accepting ∧ ∃ t, b.spec.predicate = .all t ∧
        b' = (start b.shape b.registered .branch).withTree t := by
  simp only [branchScope, bind_eq_ok, ensureOpen_eq_ok, tree_eq_ok]
  constructor
  · rintro ⟨_, hs, t, ht, h⟩
    cases h
    exact ⟨hs, t, ht, rfl⟩
  · rintro ⟨hs, t, ht, rfl⟩
    exact ⟨(), hs, t, ht, rfl⟩

/-- Accepted alternatives declare what their branches declare, and replace the conjunction by all
trees that the branches ended with. -/
theorem or_eq_ok {branches : List (Builder σ)} :
    b.or branches = .ok b' ↔
      b.stage = .accepting ∧ branches ≠ [] ∧
        (∀ sub ∈ branches, sub.scope = .branch ∧ sub.shape = b.shape) ∧
        b' =
          { b with
            stage := .closed .whereOr
            spec := { b.spec with
              relations :=
                branches.foldl (fun r sub => r.merge sub.spec.relations) b.spec.relations
              predicate := .any (branches.flatMap fun sub => sub.spec.predicate.alternatives) } } := by
  have hfold : ∀ (b : Builder σ), branches.foldl (fun b sub => b.declare sub.spec.relations) b =
      { b with spec := { b.spec with
          relations :=
            branches.foldl (fun r sub => r.merge sub.spec.relations) b.spec.relations } } := by
    induction branches with
    | nil => exact fun b => rfl
    | cons sub branches ih => exact fun b => ih _
  simp only [or, bind_eq_ok, ensureOpen_eq_ok, refuseIf_eq_ok, hfold]
  constructor
  · rintro ⟨_, hs, _, hne, _, hforeign, h⟩
    cases h
    refine ⟨hs, hne, fun sub hsub => ?_, rfl⟩
    by_contra hc
    exact hforeign ⟨sub, hsub, by simpa only [ne_eq, ← not_and_or] using hc⟩
  · rintro ⟨hs, hne, hall, rfl⟩
    refine ⟨(), hs, (), hne, (), ?_, rfl⟩
    rintro ⟨sub, hsub, hc⟩
    exact hc.elim (fun h => h (hall sub hsub).1) fun h => h (hall sub hsub).2

/-- The sub-queries of alternatives are runs from one seed. -/
theorem applyBranches_eq_ok {branches : List (List Directive)} {subs : List (Builder σ)} :
    b.applyBranches branches = .ok subs ↔
      List.Forall₂
        (fun ds sub => ∃ seed, b.branchScope = .ok seed ∧ seed.applyAll ds = .ok sub)
        branches subs := by
  induction branches generalizing subs with
  | nil =>
    rw [applyBranches, List.forall₂_nil_left_iff]
    constructor
    · intro h
      cases h
      rfl
    · rintro rfl
      rfl
  | cons ds branches ih =>
    simp only [applyBranches, bind_eq_ok, List.forall₂_cons_left_iff, ih]
    constructor
    · rintro ⟨seed, hseed, sub, hsub, subs', hsubs, h⟩
      cases h
      exact ⟨sub, subs', ⟨seed, hseed, hsub⟩, hsubs, rfl⟩
    · rintro ⟨sub, subs', ⟨seed, hseed, hsub⟩, hsubs, rfl⟩
      exact ⟨seed, hseed, sub, hsub, subs', hsubs, rfl⟩

/-! ### Shaping -/

theorem directField_eq_ok {call : Call} {raw field : String} :
    b.directField call raw = .ok field ↔
      field = raw ∧ IsSegment raw ∧ b.shape.HasPlain raw := by
  simp only [directField, bind_eq_ok, refuseIf_eq_ok, Shape.requireField_eq_ok]
  constructor
  · rintro ⟨p, hp, _, hn, f, hf, _, hr, h⟩
    cases h
    have hseg := FieldPath.parse_not_isNested.1 ⟨p, hp, by simpa using hn⟩
    exact ⟨rfl, hseg, f, hf, by simpa using hr⟩
  · rintro ⟨rfl, hseg, f, hf, hr⟩
    obtain ⟨p, hp, hn⟩ := FieldPath.parse_not_isNested.2 hseg
    exact ⟨p, hp, (), by simpa using hn, f, hf, (), by simpa using hr, rfl⟩

/-- A shaping step is accepted exactly where it is valid, whatever the stage, and changes the
specification only. -/
theorem shaped_eq_ok {step : Shaping} :
    b.shaped step = .ok b' ↔
      step.Valid σ b.shape ∧ b' = { b with spec := step.reshape b.spec } := by
  cases step with
  | sort direction field =>
    simp only [shaped, sort, bind_eq_ok, directField_eq_ok, Shaping.Valid]
    constructor
    · rintro ⟨_, ⟨rfl, h⟩, hb'⟩
      cases hb'
      exact ⟨h, rfl⟩
    · rintro ⟨h, rfl⟩
      exact ⟨field, ⟨rfl, h⟩, rfl⟩
  | select field =>
    simp only [shaped, select, bind_eq_ok, directField_eq_ok, Shaping.Valid]
    constructor
    · rintro ⟨_, ⟨rfl, h⟩, hb'⟩
      cases hb'
      exact ⟨h, rfl⟩
    · rintro ⟨h, rfl⟩
      exact ⟨field, ⟨rfl, h⟩, rfl⟩
  | fetchRelation hops =>
    simp only [shaped, fetchRelation, bind_eq_ok, Shaping.Valid, Shaping.reshape]
    constructor
    · rintro ⟨p, hp, t, ht, hb'⟩
      cases hb'
      rw [← FieldPath.segments_of_ofHops hp]
      exact ⟨⟨p, t, hp, ht⟩, rfl⟩
    · rintro ⟨⟨p, t, hp, ht⟩, rfl⟩
      rw [← FieldPath.segments_of_ofHops hp]
      exact ⟨p, hp, t, ht, rfl⟩
  | next token =>
    simp only [shaped, next, Shaping.Valid, Shaping.reshape, Pagination.resumed]
    by_cases hblank : Text.trim token.toList = []
    · rw [if_pos hblank, if_pos hblank]
      constructor
      · intro h
        cases h
        exact ⟨.inl hblank, rfl⟩
      · rintro ⟨_, rfl⟩
        rfl
    · rw [if_neg hblank, if_neg hblank, bind_eq_ok]
      constructor
      · rintro ⟨c, hc, h⟩
        cases h
        rw [hc]
        exact ⟨.inr ⟨c, rfl⟩, rfl⟩
      · rintro ⟨hvalid, rfl⟩
        obtain ⟨c, hc⟩ := hvalid.resolve_left hblank
        rw [hc]
        exact ⟨c, rfl, rfl⟩
  | loadRelationIds => simp [shaped, Shaping.Valid, Shaping.reshape, eq_comm]
  | cache policy => simp [shaped, Shaping.Valid, Shaping.reshape, eq_comm]
  | limit n =>
    have hlimit : b.limit n = { b with spec.pagination := b.spec.pagination.limited n } := by
      unfold limit Pagination.limited
      split <;> rfl
    simp [shaped, Shaping.Valid, Shaping.reshape, hlimit, eq_comm]

theorem exists_shaped_iff {step : Shaping} :
    (∃ b', b.shaped step = .ok b') ↔ step.Valid σ b.shape := by
  simp only [shaped_eq_ok, exists_and_left, exists_eq, and_true]

/-! ### What a step leaves alone -/

/-- What a shaping step leaves as it is. -/
structure SameFilter (b b' : Builder σ) : Prop where
  shape : b'.shape = b.shape
  scope : b'.scope = b.scope
  stage : b'.stage = b.stage
  entity : b'.spec.entity = b.spec.entity
  predicate : b'.spec.predicate = b.spec.predicate

theorem sameFilter_of_shaped {step : Shaping} (h : b.shaped step = .ok b') :
    SameFilter b b' := by
  obtain ⟨_, rfl⟩ := shaped_eq_ok.1 h
  exact ⟨rfl, rfl, rfl, step.entity_reshape b.spec, step.predicate_reshape b.spec⟩

/-- What every other directive leaves as it is. -/
structure SameShaping (b b' : Builder σ) : Prop where
  shape : b'.shape = b.shape
  selection : b'.spec.selection = b.spec.selection
  order : b'.spec.order = b.spec.order
  pagination : b'.spec.pagination = b.spec.pagination
  cache : b'.spec.cache = b.spec.cache
  loadRelationIds : b'.spec.loadRelationIds = b.spec.loadRelationIds

theorem sameShaping_of_write {call : Call} {raw : String} {c : Condition}
    (h : b.write call raw c = .ok b') : SameShaping b b' := by
  obtain ⟨_, _, _, _, _, _, rfl⟩ := write_eq_ok.1 h
  exact ⟨rfl, rfl, rfl, rfl, rfl, rfl⟩

theorem sameShaping_of_apply {d : Directive} (hd : d.isShaping = false) (h : b.apply d = .ok b') :
    SameShaping b b' := by
  cases d with
  | filter path f =>
    rcases filter_eq_ok.1 h with ⟨_, _, rfl⟩ | ⟨c, _, hw⟩
    · exact ⟨rfl, rfl, rfl, rfl, rfl, rfl⟩
    · exact sameShaping_of_write hw
  | oneOf path vs =>
    obtain ⟨_, b₁, hw, rfl⟩ := oneOf_eq_ok.1 h
    have hsame := sameShaping_of_write hw
    exact ⟨hsame.shape, hsame.selection, hsame.order, hsame.pagination, hsame.cache,
      hsame.loadRelationIds⟩
  | join relation ds =>
    rw [apply] at h
    obtain ⟨⟨p, sub⟩, _, h⟩ := bind_eq_ok.1 h
    obtain ⟨sub', _, h⟩ := bind_eq_ok.1 h
    obtain ⟨_, _, _, _, _, ⟨_, rfl⟩ | ⟨_, _, _, rfl⟩⟩ := join_eq_ok.1 h
    · exact ⟨rfl, rfl, rfl, rfl, rfl, rfl⟩
    · exact ⟨rfl, rfl, rfl, rfl, rfl, rfl⟩
  | or branches =>
    rw [apply] at h
    obtain ⟨subs, _, h⟩ := bind_eq_ok.1 h
    obtain ⟨_, _, _, rfl⟩ := or_eq_ok.1 h
    exact ⟨rfl, rfl, rfl, rfl, rfl, rfl⟩
  | shape step => cases hd

end Builder

end RowQuery
