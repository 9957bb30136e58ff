import RowQuery.Proofs.Builder.Run
import RowQuery.Proofs.Directive.Level

/-!
# The lists that a builder accepts

Among lists of directives that are valid where they stand, a fresh builder accepts exactly the
disciplined ones. Acceptance is decided step by step, by stage, scope and the form of the predicate;
the grammar looks at each level as a whole.
-/

namespace RowQuery

def Scope.place : Scope → Place
  | .root => .root
  | .join _ => .join
  | .branch => .branch

namespace Builder

variable {σ : Schema} {b b' : Builder σ}

/-- The chain takes conditions, and all of them so far form one conjunction. -/
structure Open (b : Builder σ) : Prop where
  accepting : b.stage = .accepting
  conjunction : ∃ t, b.spec.predicate = .all t

/-! ### Single steps -/

theorem ran_of_apply {d : Directive} (h : b.apply d = .ok b') : Ran b [d] b' :=
  ran_of_applyAll (applyAll_cons_eq_ok.2 ⟨b', h, rfl⟩)

theorem Open.exists_write (ho : b.Open) (call : Call) {path : String}
    (hv : Resolves σ b.shape path) (c : Condition) : ∃ b', b.write call path c = .ok b' := by
  obtain ⟨p, r, hp, hr⟩ := hv
  obtain ⟨t, ht⟩ := ho.conjunction
  exact ⟨_, write_eq_ok.2 ⟨ho.accepting, p, hp, ⟨r, hr⟩, t, ht, rfl⟩⟩

theorem Open.exists_filter (ho : b.Open) {path : String} {f : Filter}
    (hv : f.Valid σ b.shape path) : ∃ b', b.filter path f = .ok b' := by
  obtain ⟨c?, hc⟩ := Filter.condition?_eq_ok.2 hv.1
  cases c? with
  | none => exact ⟨b, filter_eq_ok.2 (.inl ⟨hc, ho.accepting, rfl⟩)⟩
  | some c =>
    have hne : f.condition? ≠ .ok none := by
      rw [hc]
      nofun
    obtain ⟨b', hb'⟩ := ho.exists_write f.call (hv.2 hne) c
    exact ⟨b', filter_eq_ok.2 (.inr ⟨c, hc, hb'⟩)⟩

/-- A membership test that resolves is accepted at the root, and nowhere else. -/
theorem Open.exists_oneOf_iff (ho : b.Open) {path : String} (hv : Resolves σ b.shape path)
    (vs : List Value) : (∃ b', b.oneOf path vs = .ok b') ↔ b.scope = .root := by
  constructor
  · rintro ⟨b', h⟩
    exact (oneOf_eq_ok.1 h).1
  · intro hroot
    obtain ⟨b₁, h⟩ := ho.exists_write .whereIn hv (.op (.oneOf vs))
    exact ⟨_, oneOf_eq_ok.2 ⟨hroot, b₁, h, rfl⟩⟩

/-- A step that does not close the chain leaves it open. -/
theorem Open.of_apply (ho : b.Open) {d : Directive} (hd : d.isClosing = false)
    (h : b.apply d = .ok b') : b'.Open := by
  have hran := ran_of_apply h
  obtain ⟨t, ht⟩ := ho.conjunction
  have hpredicate := hran.predicate t ht
  refine ⟨?_, ?_⟩
  · rw [← ho.accepting]
    cases d with
    | filter path f => exact stage_of_filter h
    | join relation js =>
      rw [apply] at h
      obtain ⟨⟨p, sub⟩, _, h⟩ := bind_eq_ok.1 h
      obtain ⟨sub', _, h⟩ := bind_eq_ok.1 h
      exact stage_of_join h
    | shape step => exact stage_of_shaped h
    | oneOf path vs => cases hd
    | or branches => cases hd
  · have hor : d.isOr = false := by
      cases d with
      | or branches => cases hd
      | _ => rfl
    rw [hpredicate, outcome_cons hor]
    exact ⟨d.conjoin t, rfl⟩

theorem closed_of_apply {d : Directive} (hd : d.isClosing = true) (h : b.apply d = .ok b') :
    b'.stage ≠ .accepting := by
  cases d with
  | oneOf path vs =>
    rw [stage_of_oneOf h]
    simp
  | or branches =>
    rw [apply] at h
    obtain ⟨subs, _, h⟩ := bind_eq_ok.1 h
    rw [stage_of_or h]
    simp
  | _ => cases hd

/-- Shaping steps are accepted in every stage. -/
theorem exists_applyAll_of_isShaping {ds : List Directive} (hv : Directive.AllValid σ b.shape ds)
    (hshape : ∀ d ∈ ds, d.isShaping = true) : ∃ b', b.applyAll ds = .ok b' := by
  induction ds generalizing b with
  | nil => exact ⟨b, rfl⟩
  | cons d ds ih =>
    obtain ⟨hd, hds⟩ := List.forall_mem_cons.1 hshape
    cases d with
    | shape step =>
      obtain ⟨b₁, h₁⟩ := exists_shaped_iff.2 hv.1
      have hsame := sameFilter_of_shaped h₁
      obtain ⟨b', h'⟩ := ih (b := b₁) (by rw [hsame.shape]; exact hv.2) hds
      exact ⟨b', applyAll_cons_eq_ok.2 ⟨b₁, h₁, h'⟩⟩
    | _ => cases hd

/-! ### Directives and lists -/

/-- Open builders decide by the grammar whether they accept the directive. In a join alternatives
are accepted at first, and refused when the sub-query is taken back. -/
def Judged (σ : Schema) (d : Directive) : Prop :=
  ∀ b : Builder σ, b.Open → d.Valid σ b.shape →
    ((∃ b', b.apply d = .ok b') ∧ (b.scope.place = .join → d.isOr = false) ↔
      d.Placed b.scope.place ∧ d.Inside)

/-- Open builders decide by the grammar whether they accept the list. -/
def AllJudged (σ : Schema) (ds : List Directive) : Prop :=
  ∀ b : Builder σ, b.Open → Directive.AllValid σ b.shape ds →
    ((∃ b', b.applyAll ds = .ok b') ∧ (b.scope.place = .join → Conjunctive ds) ↔
      Disciplined b.scope.place ds)

/-- After a step that is accepted, the rest has to be disciplined, or made of shaping steps only. -/
theorem AllJudged.after {d : Directive} {ds : List Directive} (hds : AllJudged σ ds) {b₁ : Builder σ}
    (ho : b.Open) (hv : Directive.AllValid σ b.shape ds) (h : b.apply d = .ok b₁) :
    (∃ b', b₁.applyAll ds = .ok b') ∧ (b.scope.place = .join → Conjunctive ds) ↔
      (d.isClosing = true → ∀ e ∈ ds, e.isShaping = true) ∧ Disciplined b.scope.place ds := by
  have hran := ran_of_apply h
  have hv₁ : Directive.AllValid σ b₁.shape ds := by
    rw [hran.shape]
    exact hv
  by_cases hc : d.isClosing = true
  · constructor
    · rintro ⟨⟨b', h'⟩, _⟩
      have hshape := (sameFilter_of_closed (closed_of_apply hc h) h').2
      exact ⟨fun _ => hshape, disciplined_of_isShaping _ hshape⟩
    · rintro ⟨hshape, _⟩
      have hshape := hshape hc
      exact ⟨exists_applyAll_of_isShaping hv₁ hshape, fun _ => conjunctive_of_isShaping hshape⟩
  · have ho₁ : b₁.Open := ho.of_apply (by simpa using hc) h
    have hjudged := hds b₁ ho₁ hv₁
    rw [hran.scope] at hjudged
    rw [hjudged]
    exact ⟨fun h => ⟨fun hc' => absurd hc' hc, h⟩, fun h => h.2⟩

theorem allJudged_of_forall {ds : List Directive} (h : ∀ d ∈ ds, Judged σ d) : AllJudged σ ds := by
  induction ds with
  | nil => exact fun b _ _ => ⟨fun _ => disciplined_nil _, fun _ => ⟨⟨b, rfl⟩, fun _ => nofun⟩⟩
  | cons d ds ih =>
    obtain ⟨hd, hds⟩ := List.forall_mem_cons.1 h
    intro b ho hv
    have hjudged := hd b ho hv.1
    rw [disciplined_cons]
    constructor
    · rintro ⟨⟨b', h'⟩, hconj⟩
      obtain ⟨b₁, h₁, h'⟩ := applyAll_cons_eq_ok.1 h'
      have hafter := (ih hds).after ho hv.2 h₁
      obtain ⟨hplaced, hinside⟩ :=
        hjudged.1 ⟨⟨b₁, h₁⟩, fun hjoin => (conjunctive_cons.1 (hconj hjoin)).1⟩
      exact ⟨hplaced, hinside,
        hafter.1 ⟨⟨b', h'⟩, fun hjoin => (conjunctive_cons.1 (hconj hjoin)).2⟩⟩
    · rintro ⟨hplaced, hinside, hrest⟩
      obtain ⟨⟨b₁, h₁⟩, hor⟩ := hjudged.2 ⟨hplaced, hinside⟩
      have hafter := (ih hds).after ho hv.2 h₁
      obtain ⟨⟨b', h'⟩, hconj⟩ := hafter.2 hrest
      exact ⟨⟨b', applyAll_cons_eq_ok.2 ⟨b₁, h₁, h'⟩⟩,
        fun hjoin => conjunctive_cons.2 ⟨hor hjoin, hconj hjoin⟩⟩

/-! ### Joins and alternatives -/

theorem open_start {s : Shape} (h : σ.shape? s.name = some s) (scope : Scope) :
    (start s h scope).Open :=
  ⟨rfl, [], rfl⟩

/-- A join is accepted if its list is disciplined. -/
theorem Open.exists_join_iff (ho : b.Open) {relation : String} {js : List Directive}
    (hjs : AllJudged σ js) (hv : Directive.Valid σ b.shape (.join relation js)) :
    (∃ b', b.apply (.join relation js) = .ok b') ↔ Disciplined .join js := by
  obtain ⟨s, ⟨p, hp, hs⟩, hvalid⟩ := hv
  have hreg := FieldPath.registered_of_foldlM_step b.registered hs
  have hsub : b.joinScope relation = .ok (p, start s hreg (.join p)) :=
    joinScope_eq_ok.2 ⟨ho.accepting, hp, s, hreg, hs, rfl⟩
  have hjudged : (∃ sub', (start s hreg (.join p)).applyAll js = .ok sub') ∧
      ((Scope.join p).place = .join → Conjunctive js) ↔ Disciplined .join js :=
    hjs (start s hreg (.join p)) (open_start hreg _) hvalid
  rw [← hjudged]
  constructor
  · rintro ⟨b', h⟩
    rw [apply] at h
    obtain ⟨_, hsub', h⟩ := bind_eq_ok.1 h
    rw [hsub] at hsub'
    cases hsub'
    obtain ⟨sub', hrun, h⟩ := bind_eq_ok.1 h
    obtain ⟨_, _, _, u, hu, _⟩ := join_eq_ok.1 h
    have houtcome : outcome [] js = .all u := by
      rw [← hu]
      exact ((ran_of_applyAll hrun).predicate [] rfl).symm
    exact ⟨⟨sub', hrun⟩, fun _ => (outcome_eq_all_iff.1 houtcome).1⟩
  · rintro ⟨⟨sub', hrun⟩, hconj⟩
    have hran := ran_of_applyAll hrun
    have hpredicate : sub'.spec.predicate = .all (PredicateTree.conjoinAll [] js) := by
      rw [hran.predicate [] rfl]
      exact outcome_eq_all_iff.2 ⟨hconj rfl, rfl⟩
    have hshape : p.resolveRelations σ b.shape = .ok sub'.shape := by
      rw [hran.shape]
      exact hs
    obtain ⟨t, ht⟩ := ho.conjunction
    obtain ⟨b', hb'⟩ : ∃ b', b.join p sub' = .ok b' := by
      by_cases hnil : PredicateTree.conjoinAll [] js = []
      · exact ⟨_, join_eq_ok.2 ⟨ho.accepting, hshape, hran.scope, _, hpredicate,
          .inl ⟨hnil, rfl⟩⟩⟩
      · exact ⟨_, join_eq_ok.2 ⟨ho.accepting, hshape, hran.scope, _, hpredicate,
          .inr ⟨hnil, t, ht, rfl⟩⟩⟩
    refine ⟨b', ?_⟩
    rw [apply]
    exact bind_eq_ok.2 ⟨_, hsub, bind_eq_ok.2 ⟨sub', hrun, hb'⟩⟩

/-- All branches are run if each is accepted from the seed. -/
theorem exists_applyBranches_iff {seed : Builder σ} (hseed : b.branchScope = .ok seed)
    {branches : List (List Directive)} :
    (∃ subs, b.applyBranches branches = .ok subs) ↔
      ∀ br ∈ branches, ∃ sub, seed.applyAll br = .ok sub := by
  simp only [applyBranches_eq_ok, hseed, Except.ok.injEq, exists_eq_left']
  induction branches with
  | nil => exact ⟨fun _ => nofun, fun _ => ⟨[], .nil⟩⟩
  | cons br branches ih =>
    rw [List.forall_mem_cons, ← ih]
    constructor
    · rintro ⟨_, hsubs⟩
      cases hsubs with
      | cons hrun hrest => exact ⟨⟨_, hrun⟩, _, hrest⟩
    · rintro ⟨⟨sub, hrun⟩, subs, hrest⟩
      exact ⟨sub :: subs, .cons hrun hrest⟩

/-- The sub-queries of the branches may be taken back. -/
theorem own_of_applyBranches {branches : List (List Directive)} {subs : List (Builder σ)}
    (h : b.applyBranches branches = .ok subs) :
    ∀ sub ∈ subs, sub.scope = .branch ∧ sub.shape = b.shape := by
  have hruns := applyBranches_eq_ok.1 h
  clear h
  induction hruns with
  | nil => exact fun sub hsub => absurd hsub List.not_mem_nil
  | cons hrun _ ih =>
    obtain ⟨seed, hseed, hrun⟩ := hrun
    obtain ⟨_, t, _, rfl⟩ := branchScope_eq_ok.1 hseed
    have hran := ran_of_applyAll hrun
    exact List.forall_mem_cons.2 ⟨⟨hran.scope, hran.shape⟩, ih⟩

/-- Alternatives are accepted if there are any and every branch is disciplined. -/
theorem Open.exists_or_iff (ho : b.Open) {branches : List (List Directive)}
    (hbranches : ∀ br ∈ branches, AllJudged σ br)
    (hv : Directive.Valid σ b.shape (.or branches)) :
    (∃ b', b.apply (.or branches) = .ok b') ↔
      branches ≠ [] ∧ ∀ br ∈ branches, Disciplined .branch br := by
  obtain ⟨t, ht⟩ := ho.conjunction
  have hseed : b.branchScope = .ok ((start b.shape b.registered .branch).withTree t) :=
    branchScope_eq_ok.2 ⟨ho.accepting, t, ht, rfl⟩
  have hopen : ((start b.shape b.registered .branch).withTree t).Open := ⟨rfl, t, rfl⟩
  have hjudged : (∀ br ∈ branches,
      ∃ sub, ((start b.shape b.registered .branch).withTree t).applyAll br = .ok sub) ↔
      ∀ br ∈ branches, Disciplined .branch br := by
    refine forall₂_congr fun br hbr => ?_
    have hvalid : Directive.AllValid σ b.shape br := Directive.branchesValid_iff.1 hv br hbr
    have h := hbranches br hbr _ hopen hvalid
    exact ⟨fun hrun => h.1 ⟨hrun, nofun⟩, fun hd => (h.2 hd).1⟩
  rw [← hjudged, ← exists_applyBranches_iff hseed]
  constructor
  · rintro ⟨b', h⟩
    rw [apply] at h
    obtain ⟨subs, hsubs, h⟩ := bind_eq_ok.1 h
    refine ⟨?_, subs, hsubs⟩
    rintro rfl
    cases hsubs
    exact (or_eq_ok.1 h).2.1 rfl
  · rintro ⟨hne, subs, hsubs⟩
    have hnil : subs ≠ [] := by
      rintro rfl
      exact hne (List.forall₂_nil_right_iff.1 (applyBranches_eq_ok.1 hsubs))
    obtain ⟨b', hb'⟩ : ∃ b', b.or subs = .ok b' :=
      ⟨_, or_eq_ok.2 ⟨ho.accepting, hnil, own_of_applyBranches hsubs, rfl⟩⟩
    refine ⟨b', ?_⟩
    rw [apply]
    exact bind_eq_ok.2 ⟨subs, hsubs, hb'⟩

/-! ### The grammar -/

theorem judged : ∀ d, Judged σ d := by
  intro d
  induction d using Directive.induction with
  | filter path f =>
    intro b ho hv
    exact ⟨fun _ => ⟨trivial, trivial⟩, fun _ => ⟨ho.exists_filter hv, fun _ => rfl⟩⟩
  | oneOf path vs =>
    intro b ho hv
    have hroot : b.scope = .root ↔ b.scope.place = .root := by
      cases b.scope <;> simp [Scope.place]
    have hone := (ho.exists_oneOf_iff hv vs).trans hroot
    exact ⟨fun h => ⟨hone.1 h.1, trivial⟩, fun h => ⟨hone.2 h.1, fun _ => rfl⟩⟩
  | join relation js hjs =>
    intro b ho hv
    have hjoin := ho.exists_join_iff (allJudged_of_forall hjs) hv
    exact ⟨fun h => ⟨trivial, hjoin.1 h.1⟩, fun h => ⟨hjoin.2 h.2, fun _ => rfl⟩⟩
  | or branches hbranches =>
    intro b ho hv
    have hor := ho.exists_or_iff (fun br hbr => allJudged_of_forall (hbranches br hbr)) hv
    constructor
    · rintro ⟨h, hplace⟩
      obtain ⟨hne, hall⟩ := hor.1 h
      have hjoin : b.scope.place ≠ .join := fun hjoin => nomatch hplace hjoin
      exact ⟨⟨hjoin, hne⟩, hall⟩
    · rintro ⟨⟨hplace, hne⟩, hall⟩
      exact ⟨hor.2 ⟨hne, hall⟩, fun hjoin => absurd hjoin hplace⟩
  | shape step =>
    intro b ho hv
    exact ⟨fun _ => ⟨trivial, trivial⟩, fun _ => ⟨exists_shaped_iff.2 hv, fun _ => rfl⟩⟩

/-- Of the lists whose directives are valid where they stand, a fresh builder accepts exactly those
that are disciplined on every level. -/
theorem exists_applyAll_iff_disciplined {entity : String} {b₀ : Builder σ} {ds : List Directive}
    (h₀ : new σ entity = .ok b₀) (hvalid : Directive.AllValid σ b₀.shape ds) :
    (∃ b, b₀.applyAll ds = .ok b) ↔ Disciplined .root ds := by
  obtain ⟨s, hs, _, rfl⟩ := new_eq_ok.1 h₀
  have hjudged := allJudged_of_forall (fun d _ => judged d) _ (open_start hs .root) hvalid
  exact ⟨fun h => hjudged.1 ⟨h, nofun⟩, fun h => (hjudged.2 h).1⟩

/-- A condition may stand before alternatives that end in alternatives, and not after them. -/
theorem exists_applyAll_iff_disciplined_articles :
    ∃ b₀ b : Builder .articles, new .articles "Article" = .ok b₀ ∧
      b₀.applyAll
        [.join "author" [.filter "name" (.eq (.string "Ada"))],
          .or [[.filter "title" .null],
            [.join "author.team" [], .or [[.filter "author.team.name" .notNull]]]]] = .ok b ∧
      Disciplined .root
        [.join "author" [.filter "name" (.eq (.string "Ada"))],
          .or [[.filter "title" .null],
            [.join "author.team" [], .or [[.filter "author.team.name" .notNull]]]]] ∧
      ¬ ∃ b, b₀.applyAll
        [.or [[.filter "title" .null],
            [.join "author.team" [], .or [[.filter "author.team.name" .notNull]]]],
          .join "author" [.filter "name" (.eq (.string "Ada"))]] = .ok b := by
  refine exists_run (by decide +kernel) fun b₀ b h₀ h => ?_
  obtain ⟨hjoin, hor, _⟩ := (ran_of_applyAll h).valid
  have hearly := @exists_applyAll_iff_disciplined _ _ b₀ [_, _] h₀ ⟨hjoin, hor, trivial⟩
  refine ⟨hearly.1 ⟨b, h⟩, fun hlate => ?_⟩
  have hdisc := (@exists_applyAll_iff_disciplined _ _ b₀ [_, _] h₀ ⟨hor, hjoin, trivial⟩).1 hlate
  obtain ⟨_, _, hclosing, _⟩ := disciplined_cons.1 hdisc
  exact absurd (hclosing rfl _ (.head _)) (by decide)

end Builder

end RowQuery
