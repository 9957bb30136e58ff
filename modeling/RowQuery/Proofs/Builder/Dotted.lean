import RowQuery.Proofs.Builder.Grammar
import RowQuery.Proofs.Builder.Relations
import RowQuery.Proofs.Directive.Dotted
import RowQuery.Proofs.Tree.Leaves

/-!
# A join is the same as dotted paths

A join collects conditions and relations in a sub-query of its own and puts them under its relation
at once. With the relation before every path, the same directives put them there one by one. Both
are accepted on the same builders, and lead to the same builder (`apply_join_iff_joinDotted`).
-/

namespace RowQuery

/-- Valid lists that write the same conditions make the same conjunction, in whatever pieces the
conditions come: the trees are compared leaf by leaf. -/
theorem PredicateTree.Fits.conjoinAll_congr {σ : Schema} {s : Shape} {t : PredicateTree}
    (ht : Fits σ s t) {ds ds' : List Directive} (hds : Directive.AllValid σ s ds)
    (hds' : Directive.AllValid σ s ds') (h : writesAll ds = writesAll ds') :
    t.conjoinAll ds = t.conjoinAll ds' := by
  refine eq_of_leaf? _ (fits_conjoinAll ds hds ht) (fits_conjoinAll ds' hds' ht) fun ks => ?_
  rw [leaf?_conjoinAll ds hds ht, leaf?_conjoinAll ds' hds' ht, h]

namespace Builder

variable {σ : Schema} {b b' : Builder σ} {t : PredicateTree}

/-- The builder with another conjunction and other relations. -/
def withTrees (b : Builder σ) (t : PredicateTree) (r : RelationTree) : Builder σ :=
  { b with spec := { b.spec with predicate := .all t, relations := r } }

/-! ### Steps -/

theorem sameShaping_of_movable {d : Directive} (hd : d.Movable) (h : b.apply d = .ok b') :
    SameShaping b b' := by
  cases hd with
  | filter path f => exact sameShaping_of_apply rfl h
  | join relation hds => exact sameShaping_of_apply rfl h
  | fetch hop hops =>
    rw [apply] at h
    obtain ⟨_, rfl⟩ := shaped_eq_ok.1 h
    exact ⟨rfl, rfl, rfl, rfl, rfl, rfl⟩

theorem SameShaping.eq_withTrees (hsame : SameShaping b b') (hscope : b'.scope = b.scope)
    (hstage : b'.stage = b.stage) (hentity : b'.spec.entity = b.spec.entity)
    (ht : b'.spec.predicate = .all t) : b' = b.withTrees t b'.spec.relations := by
  obtain ⟨shape', _, scope', stage', spec'⟩ := b'
  obtain ⟨entity', predicate', relations', order', selection', pagination', cache', ids'⟩ := spec'
  obtain ⟨rfl, rfl, rfl, rfl, rfl, rfl⟩ := hsame
  cases hscope
  cases hstage
  cases hentity
  cases ht
  rfl

/-- Nothing but the conjunction and the relations is changed. -/
theorem eq_withTrees_of_apply (hs : b.stage = .accepting) (ht : b.spec.predicate = .all t)
    {d : Directive} (hd : d.Movable) (h : b.apply d = .ok b') :
    b' = b.withTrees (d.conjoin t) (d.declare b.spec.relations) := by
  have ho : b.Open := ⟨hs, t, ht⟩
  have hran := ran_of_apply h
  have hstage : b'.stage = b.stage := (ho.of_apply hd.isClosing h).accepting.trans hs.symm
  have hpredicate : b'.spec.predicate = .all (d.conjoin t) := by
    rw [hran.predicate t ht, outcome_cons hd.isOr, outcome_nil]
  have hrelations : b'.spec.relations = d.declare b.spec.relations := hran.relations
  rw [← hrelations]
  exact (sameShaping_of_movable hd h).eq_withTrees hran.scope hstage hran.entity hpredicate

theorem eq_withTrees_of_applyAll (hs : b.stage = .accepting) (ht : b.spec.predicate = .all t)
    {ds : List Directive} (hds : ∀ d ∈ ds, d.Movable) (h : b.applyAll ds = .ok b') :
    b' = b.withTrees (t.conjoinAll ds) (b.spec.relations.declareAll ds) := by
  induction ds generalizing b t with
  | nil =>
    cases h
    rw [PredicateTree.conjoinAll, RelationTree.declareAll, withTrees, ← ht]
  | cons d ds ih =>
    obtain ⟨hd, hds⟩ := List.forall_mem_cons.1 hds
    obtain ⟨b₁, h₁, h⟩ := applyAll_cons_eq_ok.1 h
    obtain rfl := eq_withTrees_of_apply hs ht hd h₁
    exact @ih (b.withTrees _ _) _ hs rfl hds h

/-- An open builder takes the list if every directive is valid on its own. -/
theorem Open.exists_applyAll_iff (ho : b.Open) {ds : List Directive} (hds : ∀ d ∈ ds, d.Movable) :
    (∃ b', b.applyAll ds = .ok b') ↔ Directive.AllValid σ b.shape ds := by
  constructor
  · rintro ⟨b', h⟩
    exact (ran_of_applyAll h).valid
  · intro hv
    have hjudged := allJudged_of_forall (fun d _ => judged d) b ho hv
    exact (hjudged.2 (disciplined_of_movable hds _)).1

/-- Lists that name the same chains and write the same conditions lead to the same builder. -/
theorem Reachable.eq_of_applyAll (hb : b.Reachable) (hs : b.stage = .accepting)
    {ds ds' : List Directive} (hds : ∀ d ∈ ds, d.Movable) (hds' : ∀ d ∈ ds', d.Movable)
    (hwrites : writesAll ds = writesAll ds') (hchains : chainsAll ds = chainsAll ds')
    {b₁ b₂ : Builder σ} (h₁ : b.applyAll ds = .ok b₁) (h₂ : b.applyAll ds' = .ok b₂) : b₁ = b₂ := by
  obtain ⟨t, ht⟩ := hb.exists_all hs
  have hb₁ := hb.applyAll h₁
  have hb₂ := hb.applyAll h₂
  have heq₁ := eq_withTrees_of_applyAll hs ht hds h₁
  have heq₂ := eq_withTrees_of_applyAll hs ht hds' h₂
  have htree : t.conjoinAll ds = t.conjoinAll ds' :=
    (hb.wellFormed.fits_of_predicate ht).conjoinAll_congr (ran_of_applyAll h₁).valid
      (ran_of_applyAll h₂).valid hwrites
  have hrelations : b.spec.relations.declareAll ds = b.spec.relations.declareAll ds' := by
    rw [heq₁] at hb₁
    rw [heq₂] at hb₂
    exact RelationTree.eq_of_containsPath _ hb₁.wellFormed.relations.ordered
      hb₂.wellFormed.relations.ordered hb₁.filled hb₂.filled
      (containsPath_declareAll_congr hchains b.spec.relations)
  rw [heq₁, heq₂, htree, hrelations]

theorem Reachable.applyAll_congr (hb : b.Reachable) (hs : b.stage = .accepting)
    {ds ds' : List Directive} (hds : ∀ d ∈ ds, d.Movable) (hds' : ∀ d ∈ ds', d.Movable)
    (hvalid : Directive.AllValid σ b.shape ds ↔ Directive.AllValid σ b.shape ds')
    (hwrites : writesAll ds = writesAll ds') (hchains : chainsAll ds = chainsAll ds') :
    b.applyAll ds = .ok b' ↔ b.applyAll ds' = .ok b' := by
  have ho : b.Open := ⟨hs, hb.exists_all hs⟩
  have hsame := @Reachable.eq_of_applyAll _ _ hb hs _ _ hds hds' hwrites hchains
  constructor
  · intro h
    obtain ⟨b₂, h₂⟩ := (ho.exists_applyAll_iff hds').2 (hvalid.1 (ran_of_applyAll h).valid)
    rwa [hsame h h₂]
  · intro h
    obtain ⟨b₁, h₁⟩ := (ho.exists_applyAll_iff hds).2 (hvalid.2 (ran_of_applyAll h).valid)
    rwa [← hsame h₁ h]

/-- On every builder that takes conditions, a join of filters, fetched relations and such joins is
the same as to fetch its relation and to go on with the relation before every path. -/
theorem apply_join_iff_joinDotted (hb : b.Reachable) (hs : b.stage = .accepting) {relation : String}
    {s : Shape} (hr : LeadsTo σ b.shape relation s) {ds : List Directive}
    (hds : ∀ d ∈ ds, d.Movable) :
    b.apply (.join relation ds) = .ok b' ↔
      b.applyAll (Directive.joinDotted relation ds) = .ok b' := by
  have hjoin : ∀ d ∈ [Directive.join relation ds], d.Movable :=
    List.forall_mem_singleton.2 (.join relation hds)
  rw [← applyAll_singleton]
  refine hb.applyAll_congr hs hjoin (forall_movable_joinDotted hds) ?valid ?writes ?chains
  case valid =>
    rw [allValid_joinDotted_iff hds hr, ← Directive.valid_join_iff hr]
    exact and_iff_left trivial
  case writes => rw [writesAll_joinDotted hds, writesAll, writesAll, List.append_nil]
  case chains => rw [chainsAll_joinDotted hds, chainsAll, chainsAll, List.append_nil]

/-- The comparison with null adds nothing, and the team is fetched before a join goes on from it. -/
theorem apply_join_articles_iff_joinDotted :
    ∃ b₀ b : Builder .articles, new .articles "Article" = .ok b₀ ∧
      b₀.applyAll
        [.filter "title" .notNull,
          .join "author" [.filter "name" (.compare .lt .null), .shape (.fetchRelation ["team"]),
            .join "team" [.filter "name" (.eq (.string "a"))]]] = .ok b ∧
      b₀.applyAll
        [.filter "title" .notNull, .shape (.fetchRelation ["author"]),
          .filter "author.name" (.compare .lt .null), .shape (.fetchRelation ["author.team"]),
          .join "author.team" [.filter "name" (.eq (.string "a"))]] = .ok b := by
  refine exists_run (by decide +kernel) fun b₀ b h₀ h => ?_
  obtain ⟨b₁, h₁, hjoin⟩ := applyAll_cons_eq_ok.1 h
  rw [applyAll_singleton] at hjoin
  obtain ⟨⟨s, hs, _⟩, _⟩ := (ran_of_apply hjoin).valid
  have hreach : b₁.Reachable := (Reachable.new h₀).apply h₁
  refine applyAll_cons_eq_ok.2 ⟨b₁, h₁, ?_⟩
  refine (apply_join_iff_joinDotted hreach (accepting_of_apply rfl hjoin) hs ?_).1 hjoin
  simp only [List.forall_mem_cons]
  exact ⟨.filter _ _, .fetch _ _, .join _ (List.forall_mem_singleton.2 (.filter _ _)), nofun⟩

end Builder

end RowQuery
