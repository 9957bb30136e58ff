import RowQuery.Builder.Chain
import RowQuery.Proofs.Builder.Reachable

/-!
# Typed calls and the directives that mirror them

The types know a query that takes conditions from one that takes none; the builder below them asks
its stage. A chain of calls with closures inside, and the list of directives that says the same call
by call, go different ways where they compose: the branches of alternatives share one seed that is
asked for beforehand, and the directives ask for one each. They still lead to the same builder or to
the same error (`run_eq_applyAll`), and what the type says of it is its stage.
-/

namespace RowQuery

/-! ### Chains of calls -/

/-- A call that both types of queries take. -/
inductive ShapingCall where
  | shape (s : Shaping)
  | page (r : PageRequest)

/-- A chain of typed calls. Every call that tests a field and leaves the chain open is a `filter`.
The closures of joins and branches are chains themselves, on the query that they are handed. After a
call that closes the chain there are shaping calls only. -/
inductive Calls where
  | done
  | filter (path : String) (f : Filter) (rest : Calls)
  | join (relation : String) (body rest : Calls)
  | shaping (c : ShapingCall) (rest : Calls)
  | oneOf (path : String) (vs : List Value) (rest : List ShapingCall)
  | or (branches : List Calls) (rest : List ShapingCall)

variable {σ : Schema}

namespace ShapingCall

def onQuery (q : Query σ) : ShapingCall → Except QueryError (Query σ)
  | shape s => q.shaped s
  | page r => q.page r

def onTerminal (q : TerminalQuery σ) : ShapingCall → Except QueryError (TerminalQuery σ)
  | shape s => q.shaped s
  | page r => q.page r

/-- A request for a page is mirrored by its token and its page size, as far as they are there. -/
def directives : ShapingCall → List Directive
  | shape s => [.shape s]
  | page r => r.shapings.map .shape

end ShapingCall

namespace Calls

mutual

/-- The calls, one after the other. -/
def run : Calls → Query σ → Except QueryError (SubQuery σ)
  | done => fun q => .ok q
  | filter path f rest => fun q => do rest.run (← q.filter path f)
  | join relation body rest => fun q => do rest.run (← q.whereJoin relation body.run)
  | shaping c rest => fun q => do rest.run (← c.onQuery q)
  | oneOf path vs rest => fun q => do
    return (← rest.foldlM ShapingCall.onTerminal (← q.whereIn path vs) : TerminalQuery σ)
  | or branches rest => fun q => do
    return (← rest.foldlM ShapingCall.onTerminal (← q.whereOr (runBranches branches)) :
      TerminalQuery σ)

def runBranches : List Calls → Alternatives σ → Except QueryError (Alternatives σ)
  | [] => fun a => .ok a
  | c :: branches => fun a => do runBranches branches (← a.branch c.run)

end

mutual

/-- The directives that say the same, call by call. -/
def directives : Calls → List Directive
  | done => []
  | filter path f rest => .filter path f :: rest.directives
  | join relation body rest => .join relation body.directives :: rest.directives
  | shaping c rest => c.directives ++ rest.directives
  | oneOf path vs rest => .oneOf path vs :: rest.flatMap ShapingCall.directives
  | or branches rest => .or (branchDirectives branches) :: rest.flatMap ShapingCall.directives

def branchDirectives : List Calls → List (List Directive)
  | [] => []
  | c :: branches => c.directives :: branchDirectives branches

end

theorem runBranches_cons (c : Calls) (branches : List Calls) (a : Alternatives σ) :
    runBranches (c :: branches) a = a.branch c.run >>= runBranches branches := rfl

/-- Whether the chain ends with its conditions closed. -/
def closes : Calls → Bool
  | done => false
  | filter _ _ rest => rest.closes
  | join _ _ rest => rest.closes
  | shaping _ rest => rest.closes
  | oneOf _ _ _ | or _ _ => true

end Calls

/-- What the type of a query says of its stage. -/
def SubQuery.isTerminal : SubQuery σ → Bool
  | query _ => false
  | terminal _ => true

theorem SubQuery.isTerminal_builder (s : SubQuery σ) : s.builder.isTerminal = s.isTerminal := by
  cases s with
  | query q =>
    rw [builder, Builder.isTerminal, q.accepting]
    rfl
  | terminal q =>
    rw [builder, Builder.isTerminal]
    cases hs : q.builder.stage with
    | accepting => exact absurd hs q.closed
    | closed terminal => rfl

/-! ### Single calls -/

/-- Steps that agree up to views of their results are followed by steps that do. -/
theorem map_bind_of_map {ε α β γ δ : Type} {x : Except ε α} {y : Except ε β} {g : α → β}
    {k : α → Except ε γ} {k' : β → Except ε δ} {f : γ → δ} (hx : x.map g = y)
    (hk : ∀ a, y = .ok (g a) → (k a).map f = k' (g a)) : (x >>= k).map f = y >>= k' := by
  subst hx
  cases x with
  | error e => rfl
  | ok a => exact hk a rfl

namespace Builder

variable {b : Builder σ}

theorem applyAll_append (b : Builder σ) (ds es : List Directive) :
    b.applyAll (ds ++ es) = b.applyAll ds >>= fun b => b.applyAll es := by
  induction ds generalizing b with
  | nil => rfl
  | cons d ds ih =>
    rw [List.cons_append, applyAll, applyAll]
    cases b.apply d with
    | error e => rfl
    | ok b₁ => exact ih b₁

theorem page_eq_applyAll (b : Builder σ) (r : PageRequest) :
    b.page r = b.applyAll (r.shapings.map .shape) := by
  obtain ⟨token, n⟩ := r
  cases token with
  | none => cases n <;> rfl
  | some token =>
    show (b.next token >>= fun b => _) = b.next token >>= fun b => _
    cases b.next token with
    | error e => rfl
    | ok b₁ => cases n <;> rfl

end Builder

namespace Query

theorem map_new (σ : Schema) (entity : String) :
    (new σ entity).map builder = Builder.new σ entity := by
  unfold new
  split <;> simp only [*, Except.map]

variable (q : Query σ)

theorem map_filter (path : String) (f : Filter) :
    (q.filter path f).map builder = q.builder.filter path f := by
  unfold filter
  split <;> simp only [*, Except.map]

theorem map_shaped (s : Shaping) : (q.shaped s).map builder = q.builder.shaped s := by
  unfold shaped
  split <;> simp only [*, Except.map]

theorem map_page (r : PageRequest) : (q.page r).map builder = q.builder.page r := by
  unfold page
  split <;> simp only [*, Except.map]

theorem map_whereIn (path : String) (vs : List Value) :
    (q.whereIn path vs).map TerminalQuery.builder = q.builder.oneOf path vs := by
  have hvs : vs.map toValue = vs := List.map_id vs
  unfold whereIn
  split
  · rename_i b h
    rw [hvs] at h
    exact h.symm
  · rename_i e h
    rw [hvs] at h
    exact h.symm

end Query

theorem TerminalQuery.map_shaped (q : TerminalQuery σ) (s : Shaping) :
    (q.shaped s).map builder = q.builder.shaped s := by
  unfold shaped
  split <;> simp only [*, Except.map]

theorem TerminalQuery.map_page (q : TerminalQuery σ) (r : PageRequest) :
    (q.page r).map builder = q.builder.page r := by
  unfold page
  split <;> simp only [*, Except.map]

namespace ShapingCall

variable (c : ShapingCall)

theorem applyAll_directives (b : Builder σ) :
    b.applyAll c.directives = match c with
      | shape s => b.shaped s
      | page r => b.page r := by
  cases c with
  | shape s => exact b.applyAll_singleton (.shape s)
  | page r => exact (b.page_eq_applyAll r).symm

theorem map_onQuery (q : Query σ) :
    (c.onQuery q).map Query.builder = q.builder.applyAll c.directives := by
  rw [applyAll_directives]
  cases c with
  | shape s => exact q.map_shaped s
  | page r => exact q.map_page r

theorem map_onTerminal (q : TerminalQuery σ) :
    (c.onTerminal q).map TerminalQuery.builder = q.builder.applyAll c.directives := by
  rw [applyAll_directives]
  cases c with
  | shape s => exact q.map_shaped s
  | page r => exact q.map_page r

theorem map_foldlM_onTerminal (q : TerminalQuery σ) (cs : List ShapingCall) :
    (cs.foldlM onTerminal q).map TerminalQuery.builder =
      q.builder.applyAll (cs.flatMap directives) := by
  induction cs generalizing q with
  | nil => rfl
  | cons c cs ih =>
    rw [List.foldlM_cons, List.flatMap_cons, Builder.applyAll_append]
    exact map_bind_of_map (c.map_onTerminal q) fun q' _ => ih q'

theorem map_terminal (q : TerminalQuery σ) (cs : List ShapingCall) :
    (do return (← cs.foldlM onTerminal q : TerminalQuery σ) :
      Except QueryError (SubQuery σ)).map SubQuery.builder =
        q.builder.applyAll (cs.flatMap directives) := by
  rw [← map_foldlM_onTerminal]
  cases cs.foldlM onTerminal q <;> rfl

end ShapingCall

/-! ### Closures -/

namespace Builder

variable {b : Builder σ}

/-- A seed for every branch or one for all of them makes no difference. -/
theorem applyBranches_eq_mapM {seed : Builder σ} (hseed : b.branchScope = .ok seed)
    (branches : List (List Directive)) :
    b.applyBranches branches = branches.mapM seed.applyAll := by
  induction branches with
  | nil => rfl
  | cons ds branches ih =>
    rw [applyBranches, hseed, ih, List.mapM_cons]
    rfl

theorem Reachable.exists_branchScope (hb : b.Reachable) (hs : b.stage = .accepting) :
    ∃ seed, b.branchScope = .ok seed := by
  obtain ⟨t, ht⟩ := hb.exists_all hs
  exact ⟨_, branchScope_eq_ok.2 ⟨hs, t, ht, rfl⟩⟩

end Builder

/-- The closure chains calls that the directives mirror. -/
def Mirrors (build : Query σ → Except QueryError (SubQuery σ)) (ds : List Directive) : Prop :=
  ∀ q : Query σ, q.builder.Reachable → (build q).map SubQuery.builder = q.builder.applyAll ds

namespace Query

variable {q : Query σ} (hq : q.builder.Reachable)
include hq

theorem map_whereJoin {build : Query σ → Except QueryError (SubQuery σ)} {js : List Directive}
    (hbuild : Mirrors build js) (relation : String) :
    (q.whereJoin relation build).map builder = q.builder.apply (.join relation js) := by
  unfold whereJoin
  split
  · rename_i e h
    rw [Builder.apply, h]
    rfl
  · rename_i p sub h
    have happly : q.builder.apply (.join relation js) = sub.applyAll js >>= q.builder.join p := by
      rw [Builder.apply, h]
      rfl
    rw [happly, ← hbuild ⟨sub, Builder.stage_of_joinScope h⟩ (hq.joinScope h)]
    cases build ⟨sub, Builder.stage_of_joinScope h⟩ with
    | error e => rfl
    | ok s =>
      dsimp only
      split <;> simp only [*, Except.map, Except.bind, bind]

theorem map_whereOr {build : Alternatives σ → Except QueryError (Alternatives σ)}
    {branches : List (List Directive)}
    (hbuild : ∀ seed : Query σ, seed.builder.Reachable →
      (build ⟨seed, []⟩).map (·.branches.map SubQuery.builder) =
        branches.mapM seed.builder.applyAll) :
    (q.whereOr build).map TerminalQuery.builder = q.builder.apply (.or branches) := by
  obtain ⟨seed, hseed⟩ := hq.exists_branchScope q.accepting
  unfold whereOr
  split
  · rename_i e h
    rw [hseed] at h
    cases h
  · rename_i seed h
    have happly : q.builder.apply (.or branches) =
        branches.mapM seed.applyAll >>= q.builder.or := by
      rw [Builder.apply, Builder.applyBranches_eq_mapM h]
    rw [happly, ← hbuild ⟨seed, Builder.stage_of_branchScope h⟩ (hq.branchScope h)]
    cases build ⟨⟨seed, Builder.stage_of_branchScope h⟩, []⟩ with
    | error e => rfl
    | ok alternatives =>
      dsimp only
      split <;> simp only [*, Except.map, Except.bind, bind]

end Query

namespace Calls

mutual

/-- A chain of calls leads to the builder or the error that its directives lead to. -/
theorem mirrors_run : (c : Calls) → Mirrors (σ := σ) c.run c.directives
  | done => fun q _ => rfl
  | filter path f rest => fun q hq => by
    rw [directives, Builder.applyAll, Builder.apply]
    refine map_bind_of_map (q.map_filter path f) fun q' h => ?_
    exact mirrors_run rest q' (hq.filter h)
  | join relation body rest => fun q hq => by
    rw [directives, Builder.applyAll]
    refine map_bind_of_map (Query.map_whereJoin hq (mirrors_run body) relation) fun q' h => ?_
    exact mirrors_run rest q' (hq.apply h)
  | shaping c rest => fun q hq => by
    rw [directives, Builder.applyAll_append]
    refine map_bind_of_map (c.map_onQuery q) fun q' h => ?_
    exact mirrors_run rest q' (hq.applyAll h)
  | oneOf path vs rest => fun q hq => by
    rw [directives, Builder.applyAll, Builder.apply]
    exact map_bind_of_map (q.map_whereIn path vs) fun t _ => ShapingCall.map_terminal t rest
  | or branches rest => fun q hq => by
    rw [directives, Builder.applyAll]
    refine map_bind_of_map (Query.map_whereOr hq fun seed hseed => ?_) fun t _ =>
      ShapingCall.map_terminal t rest
    rw [map_runBranches branches ⟨seed, []⟩ hseed]
    cases (branchDirectives branches).mapM seed.builder.applyAll <;> rfl

theorem map_runBranches : (branches : List Calls) → (a : Alternatives σ) →
    a.seed.builder.Reachable →
    (runBranches branches a).map (·.branches.map SubQuery.builder) =
      ((branchDirectives branches).mapM a.seed.builder.applyAll).map
        (a.branches.map SubQuery.builder ++ ·)
  | [], a, _ => by simp [runBranches, branchDirectives, Except.map, pure, Except.pure]
  | c :: branches, a, ha => by
    rw [branchDirectives, List.mapM_cons, ← mirrors_run c a.seed ha, runBranches_cons]
    unfold Alternatives.branch
    cases c.run a.seed with
    | error e => rfl
    | ok s =>
      refine (map_runBranches branches { a with branches := a.branches ++ [s] } ha).trans ?_
      show _ = ((branchDirectives branches).mapM a.seed.builder.applyAll >>= fun bs =>
        pure (s.builder :: bs)).map _
      cases (branchDirectives branches).mapM a.seed.builder.applyAll with
      | error e => rfl
      | ok bs => simp [Except.map, bind, Except.bind, pure, Except.pure]

end

/-- A chain ends as the type that its calls say. -/
theorem isTerminal_run : (c : Calls) → {q : Query σ} → {s : SubQuery σ} → c.run q = .ok s →
    s.isTerminal = c.closes
  | done, _, _, h => by
    cases h
    rfl
  | filter _ _ rest, _, _, h => by
    obtain ⟨_, _, h⟩ := bind_eq_ok.1 h
    exact isTerminal_run rest h
  | join _ _ rest, _, _, h => by
    obtain ⟨_, _, h⟩ := bind_eq_ok.1 h
    exact isTerminal_run rest h
  | shaping _ rest, _, _, h => by
    obtain ⟨_, _, h⟩ := bind_eq_ok.1 h
    exact isTerminal_run rest h
  | oneOf _ _ _, _, _, h => by
    obtain ⟨_, _, h⟩ := bind_eq_ok.1 h
    obtain ⟨_, _, h⟩ := bind_eq_ok.1 h
    cases h
    rfl
  | or _ _, _, _, h => by
    obtain ⟨_, _, h⟩ := bind_eq_ok.1 h
    obtain ⟨_, _, h⟩ := bind_eq_ok.1 h
    cases h
    rfl

/-- A chain of typed calls and the directives that mirror it fail with the same error or lead to the
same specification, from the start of a query and from every query that calls lead to. A query
takes conditions and a terminal query takes none, and the calls decide which one comes out. -/
theorem run_eq_applyAll (σ : Schema) (entity : String) (c : Calls) :
    (Query.new σ entity >>= c.run).map (·.builder.spec) =
        (Builder.new σ entity >>= (·.applyAll c.directives)).map Builder.spec ∧
      (∀ q : Query σ, q.builder.Reachable →
        (c.run q).map SubQuery.builder = q.builder.applyAll c.directives) ∧
      (∀ q : Query σ, q.builder.isTerminal = false) ∧
      (∀ q : TerminalQuery σ, q.builder.isTerminal = true) ∧
      ∀ (q : Query σ) s, c.run q = .ok s →
        s.isTerminal = c.closes ∧ s.builder.isTerminal = c.closes := by
  refine ⟨?_, mirrors_run c, fun q => (SubQuery.query q).isTerminal_builder,
    fun q => (SubQuery.terminal q).isTerminal_builder, fun q s h => ?_⟩
  · have hnew : (Query.new σ entity >>= c.run).map SubQuery.builder =
        Builder.new σ entity >>= (·.applyAll c.directives) :=
      map_bind_of_map (Query.map_new σ entity) fun q h => mirrors_run c q (.new h)
    rw [← hnew]
    cases Query.new σ entity >>= c.run <;> rfl
  · rw [s.isTerminal_builder]
    exact ⟨isTerminal_run c h, isTerminal_run c h⟩

/-- A join whose closure asks for a page, and alternatives one of which ends in alternatives. -/
theorem run_articles_eq_applyAll :
    ∃ (c : Calls) (q : Query .articles) (s : SubQuery .articles),
      c = .join "author" (.filter "name" .notNull (.shaping (.page ⟨none, some 5⟩) .done))
        (.or [.filter "title" .null .done, .or [.done] [.shape (.select "title")]]
          [.page ⟨some " ", some 7⟩]) ∧
      Query.new .articles "Article" = .ok q ∧ q.builder.Reachable ∧ c.run q = .ok s ∧
      q.builder.applyAll
        [.join "author" [.filter "name" .notNull, .shape (.limit 5)],
          .or [[.filter "title" .null], [.or [[]], .shape (.select "title")]],
          .shape (.next " "), .shape (.limit 7)] = .ok s.builder ∧
      s.builder.isTerminal = true := by
  let c : Calls := .join "author" (.filter "name" .notNull (.shaping (.page ⟨none, some 5⟩) .done))
    (.or [.filter "title" .null .done, .or [.done] [.shape (.select "title")]]
      [.page ⟨some " ", some 7⟩])
  obtain ⟨s, hrun⟩ : ∃ s, (Query.new .articles "Article" >>= c.run) = .ok s :=
    exists_ok_of_isSome (by decide +kernel)
  obtain ⟨q, hq, hrun⟩ := bind_eq_ok.1 hrun
  have hreachable : q.builder.Reachable := .new ((Query.map_new _ _).symm.trans (by rw [hq]; rfl))
  obtain ⟨_, hagree, _, _, hstage⟩ := run_eq_applyAll .articles "Article" c
  refine ⟨c, q, s, rfl, hq, hreachable, hrun, ?_, (hstage q s hrun).2⟩
  exact (hagree q hreachable).symm.trans (by rw [hrun]; rfl)

end Calls

end RowQuery
