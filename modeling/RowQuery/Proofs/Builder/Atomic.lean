import RowQuery.Builder.InPlace
import RowQuery.Proofs.Builder.Reachable

/-!
# Steps that stop change nothing

Changed in place, a builder is the same after a directive that fails as before it
(`apply_eq_settled`). Relations are declared before the conjunction is asked for, so this hangs on
the conjunction being there whenever the chain takes conditions, which holds of every builder that
calls lead to. A list of directives stops at the first one that fails, with what those before it
have made (`applyAll_eq_error_iff`).
-/

namespace RowQuery

namespace InPlace

variable {σ : Schema} {b b' : Builder σ} {α β : Type}

/-! ### Steps in sequence -/

/-- The end of a step that has changed everything or nothing. -/
def settled (b : Builder σ) : Except QueryError (Builder σ) →
    EStateM.Result QueryError (Builder σ) Unit
  | .ok b' => .ok () b'
  | .error e => .error e b

theorem settled_eq_ok {r : Except QueryError (Builder σ)} :
    settled b r = .ok () b' ↔ r = .ok b' := by
  cases r <;> simp [settled]

theorem settled_eq_error {r : Except QueryError (Builder σ)} {e : QueryError} :
    settled b r = .error e b' ↔ r = .error e ∧ b' = b := by
  cases r <;> simp [settled, eq_comm]

section Bind

variable {x : InPlace σ α} {next : α → InPlace σ β}

theorem bind_of_ok {a : α} (hx : x b = .ok a b') : (x >>= next) b = next a b' := by
  show EStateM.bind x next b = _
  rw [EStateM.bind, hx]

theorem bind_of_error {e : QueryError} (hx : x b = .error e b') :
    (x >>= next) b = .error e b' := by
  show EStateM.bind x next b = _
  rw [EStateM.bind, hx]

variable {r : Except QueryError α} (hx : x b = unchanged b r)
include hx

/-- After a step that has changed nothing it is up to the next one whether anything changes. -/
theorem bind_settled {next : α → InPlace σ Unit} {g : α → Except QueryError (Builder σ)}
    (h : ∀ a, r = .ok a → next a b = settled b (g a)) : (x >>= next) b = settled b (r >>= g) := by
  cases r with
  | error e => exact bind_of_error hx
  | ok a => exact (bind_of_ok hx).trans (h a rfl)

theorem bind_unchanged {g : α → Except QueryError β}
    (h : ∀ a, r = .ok a → next a b = unchanged b (g a)) :
    (x >>= next) b = unchanged b (r >>= g) := by
  cases r with
  | error e => exact bind_of_error hx
  | ok a => exact (bind_of_ok hx).trans (h a rfl)

end Bind

/-! ### Conditions -/

/-- Whenever the chain takes conditions, there is one conjunction to put them into. -/
def Ready (b : Builder σ) : Prop := b.stage = .accepting → ∃ t, b.spec.predicate = .all t

theorem mergeTree_eq_settled {call : Call} {u t : PredicateTree} (ht : b.spec.predicate = .all t)
    (b₀ : Builder σ) : mergeTree call u b = settled b₀ (b.mergeTree call u) := by
  have htree : b.tree call = .ok t := Builder.tree_eq_ok.2 ht
  have hcheck : check (·.tree call) b = .ok t b := by rw [check, htree, unchanged]
  rw [mergeTree, bind_of_ok hcheck, Builder.mergeTree, htree]
  rfl

theorem write_eq_settled (hb : Ready b) (call : Call) (raw : String) (c : Condition) :
    write call raw c b = settled b (b.write call raw c) := by
  rw [write, Builder.write]
  refine bind_settled rfl fun _ hs => bind_settled rfl fun p _ => bind_settled rfl fun _ _ => ?_
  -- the relations are declared by now, so nothing may go wrong any more
  obtain ⟨t, ht⟩ := hb (Builder.ensureOpen_eq_ok.1 hs)
  cases p.relationPrefix? with
  | none => exact mergeTree_eq_settled ht b
  | some relation =>
    have ht' : (b.declare relation.declaration).spec.predicate = .all t := ht
    exact mergeTree_eq_settled ht' b

theorem filter_eq_settled (hb : Ready b) (path : String) (f : Filter) :
    filter path f b = settled b (b.filter path f) := by
  rw [filter, Builder.filter]
  refine bind_settled rfl fun c _ => ?_
  cases c with
  | none =>
    show check (·.ensureOpen f.call) b = settled b (b.ensureOpen f.call >>= fun _ => .ok b)
    rw [check]
    cases b.ensureOpen f.call <;> rfl
  | some c => exact write_eq_settled hb f.call path c

/-- A membership test has only to close the chain once its condition is written. -/
theorem oneOf_eq_settled (hb : Ready b) (path : String) (vs : List Value) :
    oneOf path vs b = settled b (b.oneOf path vs) := by
  rw [oneOf, Builder.oneOf]
  refine bind_settled rfl fun _ _ => ?_
  cases hscope : b.scope with
  | join relation => exact bind_of_error (by simp only [checkRoot, check, hscope, unchanged])
  | branch => exact bind_of_error (by simp only [checkRoot, check, hscope, unchanged])
  | root =>
    have hroot : checkRoot b = .ok () b := by simp only [checkRoot, check, hscope, unchanged]
    have hwrite := write_eq_settled hb .whereIn path (.op (.oneOf vs))
    rw [bind_of_ok hroot]
    cases hw : b.write .whereIn path (.op (.oneOf vs)) with
    | error e => exact bind_of_error (hwrite.trans (congrArg (settled b) hw))
    | ok b₁ => exact bind_of_ok (hwrite.trans (congrArg (settled b) hw))

/-! ### Joins and alternatives -/

theorem join_eq_settled (hb : Ready b) (path : FieldPath) (sub : Builder σ) :
    join path sub b = settled b (b.join path sub) := by
  rw [join, Builder.join]
  refine bind_settled rfl fun _ hs => bind_settled rfl fun s _ => bind_settled rfl fun _ _ => ?_
  obtain ⟨t, ht⟩ := hb (Builder.ensureOpen_eq_ok.1 hs)
  cases sub.spec.predicate with
  | any _ => rfl
  | all u =>
    cases u with
    | nil => rfl
    | cons e u =>
      exact mergeTree_eq_settled (b := b.declare _) ht b

theorem declareEach_eq (subs : List (Builder σ)) (b : Builder σ) :
    declareEach subs b = .ok () (subs.foldl (fun b sub => b.declare sub.spec.relations) b) := by
  induction subs generalizing b with
  | nil => rfl
  | cons sub subs ih => exact ih (b.declare sub.spec.relations)

/-- Alternatives are written only after everything has been looked at. -/
theorem or_eq_settled (subs : List (Builder σ)) : or subs b = settled b (b.or subs) := by
  rw [or, Builder.or]
  refine bind_settled rfl fun _ _ => bind_settled rfl fun _ _ => bind_settled rfl fun _ _ => ?_
  exact bind_of_ok (declareEach_eq subs b)

/-! ### Shaping -/

theorem shaped_eq_settled (step : Shaping) : shaped step b = settled b (b.shaped step) := by
  cases step with
  | sort direction field => exact bind_settled rfl fun _ _ => rfl
  | select field => exact bind_settled rfl fun _ _ => rfl
  | fetchRelation hops => exact bind_settled rfl fun _ _ => bind_settled rfl fun _ _ => rfl
  | next token =>
    rw [shaped, Builder.shaped, next, Builder.next]
    split
    · rfl
    · exact bind_settled rfl fun _ _ => rfl
  | loadRelationIds => rfl
  | cache policy => rfl
  | limit n => rfl

end InPlace

/-! ### Directives -/

theorem Builder.Reachable.ready {σ : Schema} {b : Builder σ} (hb : b.Reachable) :
    InPlace.Ready b :=
  hb.exists_all

namespace InPlace

variable {σ : Schema} {b b' : Builder σ}

mutual

/-- A directive changes the builder as a whole or not at all. -/
theorem apply_eq_settled : {b : Builder σ} → b.Reachable → (d : Directive) →
    apply d b = settled b (b.apply d)
  | _, hb, .filter path f => filter_eq_settled hb.ready path f
  | _, hb, .oneOf path vs => oneOf_eq_settled hb.ready path vs
  | b, hb, .join relation ds => by
    rw [apply, Builder.apply]
    refine bind_settled rfl fun ⟨path, sub⟩ hsub => ?_
    have hrun := result_applyAll (hb.joinScope hsub) ds
    refine bind_settled (congrArg (unchanged b) hrun) fun sub' _ => ?_
    exact join_eq_settled hb.ready path sub'
  | b, hb, .or branches => by
    rw [apply, Builder.apply]
    exact bind_settled (applyBranches_eq_unchanged hb branches) fun subs _ => or_eq_settled subs
  | _, _, .shape step => shaped_eq_settled step

theorem result_applyAll : {b : Builder σ} → b.Reachable → (ds : List Directive) →
    (applyAll ds).result b = b.applyAll ds
  | _, _, [] => rfl
  | b, hb, d :: ds => by
    have hd := apply_eq_settled hb d
    rw [Builder.applyAll, applyAll, result]
    cases hstep : b.apply d with
    | error e =>
      rw [hstep] at hd
      rw [bind_of_error hd]
      rfl
    | ok b₁ =>
      rw [hstep] at hd
      rw [bind_of_ok hd]
      exact result_applyAll (hb.apply hstep) ds

theorem applyBranches_eq_unchanged : {b : Builder σ} → b.Reachable →
    (branches : List (List Directive)) →
    applyBranches branches b = unchanged b (b.applyBranches branches)
  | _, _, [] => rfl
  | b, hb, ds :: branches => by
    rw [applyBranches, Builder.applyBranches]
    refine bind_unchanged rfl fun seed hseed => ?_
    have hrun := result_applyAll (hb.branchScope hseed) ds
    refine bind_unchanged (congrArg (unchanged b) hrun) fun sub _ => ?_
    exact bind_unchanged (applyBranches_eq_unchanged hb branches) fun subs _ => rfl

end

/-! ### Lists -/

/-- A list fails at its first directive, or behind it. -/
theorem exists_failure_cons {d : Directive} {ds : List Directive} {e : QueryError} :
    (∃ before d' after, d :: ds = before ++ d' :: after ∧ b.applyAll before = .ok b' ∧
      b'.apply d' = .error e) ↔
      b.apply d = .error e ∧ b' = b ∨
        ∃ b₁, b.apply d = .ok b₁ ∧ ∃ before d' after, ds = before ++ d' :: after ∧
          b₁.applyAll before = .ok b' ∧ b'.apply d' = .error e := by
  constructor
  · rintro ⟨before, d', after, hds, hrun, hfail⟩
    cases before with
    | nil =>
      cases hds
      cases hrun
      exact .inl ⟨hfail, rfl⟩
    | cons d₁ before =>
      cases hds
      obtain ⟨b₁, h₁, hrun⟩ := Builder.applyAll_cons_eq_ok.1 hrun
      exact .inr ⟨b₁, h₁, before, d', after, rfl, hrun, hfail⟩
  · rintro (⟨hfail, rfl⟩ | ⟨b₁, h₁, before, d', after, rfl, hrun, hfail⟩)
    · exact ⟨[], d, ds, rfl, rfl, hfail⟩
    · exact ⟨d :: before, d', after, rfl, Builder.applyAll_cons_eq_ok.2 ⟨b₁, h₁, hrun⟩, hfail⟩

/-- A list stops at its first directive that fails, with the builder that those before lead to. -/
theorem applyAll_eq_error_iff (hb : b.Reachable) {ds : List Directive} {e : QueryError} :
    applyAll ds b = .error e b' ↔
      ∃ before d after, ds = before ++ d :: after ∧ b.applyAll before = .ok b' ∧
        b'.apply d = .error e := by
  induction ds generalizing b with
  | nil =>
    constructor
    · intro h
      cases h
    · rintro ⟨before, d, after, hds, _⟩
      simp at hds
  | cons d ds ih =>
    have hd := apply_eq_settled hb d
    rw [applyAll, exists_failure_cons]
    cases hstep : b.apply d with
    | error e' =>
      rw [hstep] at hd
      rw [bind_of_error hd]
      simp [eq_comm]
    | ok b₁ =>
      rw [hstep] at hd
      rw [bind_of_ok hd, ih (hb.apply hstep)]
      simp

/-- On every builder that calls lead to, a directive that fails changes nothing and one that
succeeds does what it does to a copy. The predicate is a list of alternatives exactly if these
closed the chain, so whenever the chain takes conditions the conjunction and the start of a branch
can be had. -/
theorem apply_eq_error_iff (hb : b.Reachable) :
    (∀ d e b', apply d b = .error e b' ↔ b.apply d = .error e ∧ b' = b) ∧
      (∀ d b', apply d b = .ok () b' ↔ b.apply d = .ok b') ∧
      ((∃ ts, b.spec.predicate = .any ts) ↔ b.stage = .closed .whereOr) ∧
      (b.stage = .accepting →
        (∀ call, ∃ t, b.tree call = .ok t) ∧ ∃ seed, b.branchScope = .ok seed) := by
  refine ⟨?fails, ?succeeds, hb.exists_any_iff, ?conjunction⟩
  case fails =>
    intro d e b'
    rw [apply_eq_settled hb d, settled_eq_error]
  case succeeds =>
    intro d b'
    rw [apply_eq_settled hb d, settled_eq_ok]
  case conjunction =>
    intro hs
    obtain ⟨t, ht⟩ := hb.exists_all hs
    exact ⟨fun _ => ⟨t, Builder.tree_eq_ok.2 ht⟩, _, Builder.branchScope_eq_ok.2 ⟨hs, t, ht, rfl⟩⟩

/-- The membership test inside the join comes after a condition that declares a relation, and
nothing of it is left. -/
theorem apply_articles_eq_error :
    ∃ (b : Builder .articles) (e : QueryError), b.Reachable ∧
      b.spec.relations.paths = [["author"]] ∧
      apply (.join "author" [.filter "team.name" .notNull, .oneOf "name" []]) b = .error e b := by
  obtain ⟨b, hb, hp⟩ : ∃ b : Builder .articles,
      (Builder.new .articles "Article" >>= (·.applyAll [.filter "author.name" .notNull])) = .ok b ∧
      (decide (b.spec.relations.paths = [["author"]]) &&
        (b.apply (.join "author" [.filter "team.name" .notNull,
          .oneOf "name" []])).toOption.isNone) = true :=
    exists_ok_of_any (by decide +kernel)
  obtain ⟨b₀, h₀, h⟩ := bind_eq_ok.1 hb
  have hreach : b.Reachable := (Builder.Reachable.new h₀).applyAll h
  obtain ⟨hpaths, hfail⟩ := Bool.and_eq_true_iff.1 hp
  cases hstep : b.apply (.join "author" [.filter "team.name" .notNull, .oneOf "name" []]) with
  | ok b' =>
    rw [hstep] at hfail
    cases hfail
  | error e =>
    have hsettled := ((apply_eq_error_iff hreach).1 _ e b).2 ⟨hstep, rfl⟩
    exact ⟨b, e, hreach, of_decide_eq_true hpaths, hsettled⟩

-- No calls lead to a builder that takes conditions and has alternatives. There a condition would be
-- refused when its relation is declared already.
example :
    (Builder.new .articles "Article").toOption.map (fun b =>
      match apply (.filter "author.name" .notNull) { b with spec.predicate := .any [] } with
      | .ok _ _ => []
      | .error _ b' => b'.spec.relations.paths) = some [["author"]] := by
  decide +kernel

end InPlace

end RowQuery
