import RowQuery.Proofs.Builder.Grammar
import RowQuery.Proofs.Builder.Relations
import RowQuery.Proofs.Directive.Shaping

/-!
# Shaping does not depend on filtering

Both kinds of directives write to the declared relations, and after the chain is closed only one of
them is accepted. Still a list may be taken apart into what shapes and what filters: whether it is
accepted and what comes out of it stay the same when its shaping steps are moved behind all others
(`shaping_independent`). In joins and branches they can be dropped, up to the relations fetched.
-/

namespace RowQuery

/-! ### What shaping steps write -/

/-- The specifications differ in their entities, predicates and relations at most. -/
structure QuerySpec.SameShaping (q q' : QuerySpec) : Prop where
  order : q.order = q'.order
  selection : q.selection = q'.selection
  pagination : q.pagination = q'.pagination
  cache : q.cache = q'.cache
  loadRelationIds : q.loadRelationIds = q'.loadRelationIds

namespace QuerySpec.SameShaping

variable {q q' q'' : QuerySpec}

theorem refl (q : QuerySpec) : q.SameShaping q := ⟨rfl, rfl, rfl, rfl, rfl⟩

theorem symm (h : q.SameShaping q') : q'.SameShaping q :=
  ⟨h.order.symm, h.selection.symm, h.pagination.symm, h.cache.symm, h.loadRelationIds.symm⟩

theorem trans (h : q.SameShaping q') (h' : q'.SameShaping q'') : q.SameShaping q'' :=
  ⟨h.order.trans h'.order, h.selection.trans h'.selection, h.pagination.trans h'.pagination,
    h.cache.trans h'.cache, h.loadRelationIds.trans h'.loadRelationIds⟩

theorem reshape (h : q.SameShaping q') (step : Shaping) :
    (step.reshape q).SameShaping (step.reshape q') := by
  obtain ⟨horder, hselection, hpagination, hcache, hids⟩ := h
  cases step <;> constructor <;> simp only [Shaping.reshape, *]

theorem eq (h : q.SameShaping q') (hentity : q.entity = q'.entity)
    (hpredicate : q.predicate = q'.predicate) (hrelations : q.relations = q'.relations) :
    q = q' := by
  obtain ⟨horder, hselection, hpagination, hcache, hids⟩ := h
  cases q
  cases q'
  simp_all only

end QuerySpec.SameShaping

namespace Builder

variable {σ : Schema} {b b' : Builder σ} {ds : List Directive}

/-- Of all directives only the shaping steps reshape the specification, each in its turn. -/
theorem sameShaping_of_applyAll {q : QuerySpec} (hq : q.SameShaping b.spec)
    (h : b.applyAll ds = .ok b') : ((shapings ds).foldl Shaping.reshape q).SameShaping b'.spec := by
  induction ds generalizing b q with
  | nil =>
    cases h
    exact hq
  | cons d ds ih =>
    obtain ⟨b₁, hd, hrest⟩ := applyAll_cons_eq_ok.1 h
    by_cases hshape : d.isShaping = true
    · cases d with
      | shape step =>
        obtain ⟨_, rfl⟩ := shaped_eq_ok.1 hd
        exact ih (hq.reshape step) hrest
      | _ => cases hshape
    · have hshape : d.isShaping = false := by simpa using hshape
      have hsame := sameShaping_of_apply hshape hd
      rw [shapings_cons_of_not_isShaping hshape]
      refine ih (hq.trans ?_) hrest
      exact ⟨hsame.order.symm, hsame.selection.symm, hsame.pagination.symm, hsame.cache.symm,
        hsame.loadRelationIds.symm⟩

/-! ### Steps moved on the level of the root -/

section Root

variable {entity : String} {b₀ : Builder σ}

theorem exists_applyAll_iff (h₀ : new σ entity = .ok b₀) :
    (∃ b, b₀.applyAll ds = .ok b) ↔ Directive.AllValid σ b₀.shape ds ∧ Disciplined .root ds := by
  obtain ⟨s, hs, _, rfl⟩ := new_eq_ok.1 h₀
  have hlist : AllJudged σ ds := allJudged_of_forall fun d _ => judged d
  have hjudged := hlist _ (open_start hs .root)
  constructor
  · rintro ⟨b, h⟩
    have hvalid := (ran_of_applyAll h).valid
    exact ⟨hvalid, (hjudged hvalid).1 ⟨⟨b, h⟩, nofun⟩⟩
  · rintro ⟨hvalid, hdisc⟩
    exact ((hjudged hvalid).2 hdisc).1

theorem predicate_of_applyAll (h₀ : new σ entity = .ok b₀) (h : b₀.applyAll ds = .ok b) :
    b.spec.predicate = outcome [] (unshaped ds) := by
  obtain ⟨s, _, _, rfl⟩ := new_eq_ok.1 h₀
  rw [(ran_of_applyAll h).predicate [] rfl, outcome_unshaped]

/-- Moved behind, the shaping steps are accepted and lead to the same specification. -/
theorem exists_applyAll_shapingLast (h₀ : new σ entity = .ok b₀) (h : b₀.applyAll ds = .ok b) :
    ∃ b', b₀.applyAll (shapingLast ds) = .ok b' ∧ b'.spec = b.spec := by
  obtain ⟨hvalid, hdisc⟩ := (exists_applyAll_iff h₀).1 ⟨b, h⟩
  have hperm := perm_shapingLast ds
  have hvalid' : Directive.AllValid σ b₀.shape (shapingLast ds) :=
    Directive.allValid_iff.2 fun d hd => Directive.allValid_iff.1 hvalid d (hperm.mem_iff.1 hd)
  have hdisc' : Disciplined .root (shapingLast ds) := by
    rwa [← disciplined_unshaped, unshaped_shapingLast, disciplined_unshaped]
  obtain ⟨b', h'⟩ := (exists_applyAll_iff h₀).2 ⟨hvalid', hdisc'⟩
  have hshaping := sameShaping_of_applyAll (.refl b₀.spec) h
  have hshaping' := sameShaping_of_applyAll (.refl b₀.spec) h'
  rw [shapings_shapingLast] at hshaping'
  refine ⟨b', h', (hshaping'.symm.trans hshaping).eq ?_ ?_ ?_⟩
  · rw [(ran_of_applyAll h').entity, (ran_of_applyAll h).entity]
  · rw [predicate_of_applyAll h₀ h', predicate_of_applyAll h₀ h, unshaped_shapingLast]
  · exact relations_eq_of_declares h₀ h h₀ h' (declares_of_perm hperm)

/-- Valid shaping steps can be put in anywhere. -/
theorem exists_applyAll_of_unshaped (h₀ : new σ entity = .ok b₀)
    (h : b₀.applyAll (unshaped ds) = .ok b)
    (hvalid : ∀ d ∈ ds, d.isShaping = true → d.Valid σ b₀.shape) :
    ∃ b', b₀.applyAll ds = .ok b' ∧ b'.spec.predicate = b.spec.predicate := by
  obtain ⟨hvalid', hdisc⟩ := (exists_applyAll_iff h₀).1 ⟨b, h⟩
  have hall : Directive.AllValid σ b₀.shape ds := by
    refine Directive.allValid_iff.2 fun d hd => ?_
    cases hshape : d.isShaping with
    | true => exact hvalid d hd hshape
    | false =>
      exact Directive.allValid_iff.1 hvalid' d (List.mem_filter.2 ⟨hd, by simp [hshape]⟩)
  obtain ⟨b', h'⟩ := (exists_applyAll_iff h₀).2 ⟨hall, disciplined_unshaped.1 hdisc⟩
  refine ⟨b', h', ?_⟩
  have hidem : unshaped (unshaped ds) = unshaped ds := by simp [unshaped]
  rw [predicate_of_applyAll h₀ h', predicate_of_applyAll h₀ h, hidem]

end Root

/-! ### Steps dropped in joins and branches -/

theorem Reachable.open_of_apply (hb : b.Reachable) {d : Directive} (hd : d.isShaping = false)
    (h : b.apply d = .ok b') : b.Open :=
  have hs := accepting_of_apply hd h
  ⟨hs, hb.exists_all hs⟩

/-- An open builder accepts a directive with valid shaping steps inside if it accepts it without. -/
theorem Open.exists_apply_bare_iff (ho : b.Open) {d : Directive} (hv : d.Valid σ b.shape) :
    (∃ b', b.apply d.bare = .ok b') ↔ ∃ b', b.apply d = .ok b' := by
  have hall : ∀ ds, AllJudged σ ds := fun ds => allJudged_of_forall fun d _ => judged d
  cases d with
  | join relation js =>
    have hbare := ho.exists_join_iff (hall (bareAll js)) (Directive.Valid.bare _ hv)
    exact hbare.trans (disciplined_bareAll.trans (ho.exists_join_iff (hall js) hv).symm)
  | or branches =>
    have hbare := ho.exists_or_iff (fun br _ => hall br) (Directive.Valid.bare _ hv)
    have hgrammar : (bareBranches branches ≠ [] ∧
        ∀ br ∈ bareBranches branches, Disciplined .branch br) ↔
        branches ≠ [] ∧ ∀ br ∈ branches, Disciplined .branch br := by
      simp [bareBranches_eq_map, disciplined_bareAll]
    exact hbare.trans (hgrammar.trans (ho.exists_or_iff (fun br _ => hall br) hv).symm)
  | _ => rfl

theorem Reachable.exists_apply_iff_bare (hb : b.Reachable) (d : Directive) :
    (∃ b', b.apply d = .ok b') ↔ d.Valid σ b.shape ∧ ∃ b', b.apply d.bare = .ok b' := by
  cases hd : d.isShaping with
  | true =>
    cases d with
    | shape step => exact ⟨fun h => ⟨exists_shaped_iff.1 h, h⟩, fun h => h.2⟩
    | _ => cases hd
  | false =>
    constructor
    · rintro ⟨b', h⟩
      have hv := (ran_of_apply h).valid.1
      exact ⟨hv, ((hb.open_of_apply hd h).exists_apply_bare_iff hv).2 ⟨b', h⟩⟩
    · rintro ⟨hv, b', h⟩
      have hd' : d.bare.isShaping = false := by rw [d.isShaping_bare, hd]
      exact ((hb.open_of_apply hd' h).exists_apply_bare_iff hv).1 ⟨b', h⟩

theorem Reachable.mem_paths_of_apply (hb : b.Reachable) {d : Directive} (h : b.apply d = .ok b')
    (ks : List String) :
    ks ∈ b'.spec.relations.paths ↔
      ks ≠ [] ∧ (b.spec.relations.containsPath ks = true ∨ ∃ c ∈ d.chains, ks <+: c) := by
  rw [RelationTree.mem_paths _ (hb.apply h).wellFormed.relations.ordered]
  refine and_congr_right fun hne => ?_
  have hspans := spans_declareAll [d] RelationTree.spans_nil ks hne
  rw [List.nil_append, chainsAll, chainsAll, List.append_nil] at hspans
  rw [(ran_of_apply h).relations, containsPath_declareAll, Bool.or_eq_true, hspans]

/-- Of shaping steps inside a directive the parent keeps the relations that they fetch. -/
theorem Reachable.spec_of_bare (hb : b.Reachable) {d : Directive} {b'' : Builder σ}
    (h : b.apply d = .ok b') (h' : b.apply d.bare = .ok b'') :
    b'.spec = { b''.spec with relations := b'.spec.relations } ∧
      ∀ ks, ks ∈ b'.spec.relations.paths ↔
        ks ∈ b''.spec.relations.paths ∨ ks ≠ [] ∧ ∃ c ∈ d.fetched, ks <+: c := by
  constructor
  · cases hd : d.isShaping with
    | true =>
      cases d with
      | shape step =>
        cases h.symm.trans h'
        rfl
      | _ => cases hd
    | false =>
      obtain ⟨t, ht⟩ := (hb.open_of_apply hd h).conjunction
      have hsame := sameShaping_of_apply hd h
      have hsame' := sameShaping_of_apply (by rw [d.isShaping_bare, hd]) h'
      refine QuerySpec.SameShaping.eq ⟨?_, ?_, ?_, ?_, ?_⟩ ?_ ?_ rfl
      · rw [hsame.order, ← hsame'.order]
      · rw [hsame.selection, ← hsame'.selection]
      · rw [hsame.pagination, ← hsame'.pagination]
      · rw [hsame.cache, ← hsame'.cache]
      · rw [hsame.loadRelationIds, ← hsame'.loadRelationIds]
      · rw [(ran_of_apply h).entity, ← (ran_of_apply h').entity]
      · rw [(ran_of_apply h).predicate t ht, ← outcome_bare, ← (ran_of_apply h').predicate t ht]
  · intro ks
    simp only [hb.mem_paths_of_apply h, hb.mem_paths_of_apply h', d.mem_chains_bare,
      or_and_right, exists_or]
    rw [← and_or_left, or_assoc]

/-- Shaping is independent of filtering. The shaping steps of an accepted list may stand behind all
its other directives, or anywhere else. Inside joins and branches they are accepted wherever they
are valid, and add to the parent nothing but the relations that they fetch. -/
theorem shaping_independent {entity : String} {b₀ : Builder σ} (h₀ : new σ entity = .ok b₀) :
    (∀ ds b, b₀.applyAll ds = .ok b →
      ∃ b', b₀.applyAll (shapingLast ds) = .ok b' ∧ b'.spec = b.spec) ∧
    (∀ ds b, b₀.applyAll (unshaped ds) = .ok b →
      (∀ d ∈ ds, d.isShaping = true → d.Valid σ b₀.shape) →
      ∃ b', b₀.applyAll ds = .ok b' ∧ b'.spec.predicate = b.spec.predicate) ∧
    ∀ (parent : Builder σ) d, parent.Reachable →
      ((∃ b, parent.apply d = .ok b) ↔
        d.Valid σ parent.shape ∧ ∃ b, parent.apply d.bare = .ok b) ∧
      ∀ b b', parent.apply d = .ok b → parent.apply d.bare = .ok b' →
        b.spec = { b'.spec with relations := b.spec.relations } ∧
        ∀ ks, ks ∈ b.spec.relations.paths ↔
          ks ∈ b'.spec.relations.paths ∨ ks ≠ [] ∧ ∃ c ∈ d.fetched, ks <+: c :=
  ⟨fun _ _ h => exists_applyAll_shapingLast h₀ h,
    fun _ _ h hvalid => exists_applyAll_of_unshaped h₀ h hvalid,
    fun _ d hb => ⟨hb.exists_apply_iff_bare d, fun _ _ h h' => hb.spec_of_bare h h'⟩⟩

/-- Page sizes before and after alternatives, the last of which counts, and a page size inside a
join, which does not. -/
theorem shaping_articles_independent :
    ∃ b₀ b : Builder .articles, new .articles "Article" = .ok b₀ ∧
      b₀.applyAll
        [.shape (.limit 5), .filter "title" .notNull,
          .or [[.shape (.fetchRelation ["author"])], [.filter "author.name" .null]],
          .shape (.limit 7)] = .ok b ∧
      (∃ b', b₀.applyAll
        [.filter "title" .notNull,
          .or [[.shape (.fetchRelation ["author"])], [.filter "author.name" .null]],
          .shape (.limit 5), .shape (.limit 7)] = .ok b' ∧ b'.spec = b.spec) ∧
      ∃ b₁,
        b₀.apply (.join "author" [.shape (.limit 5), .shape (.fetchRelation ["team"])]) = .ok b₁ ∧
        ["author", "team"] ∈ b₁.spec.relations.paths ∧
        b₁.spec.pagination = b₀.spec.pagination := by
  refine exists_run (by decide +kernel) fun b₀ b h₀ h => ?_
  obtain ⟨hlast, _, hinside⟩ := shaping_independent h₀
  refine ⟨hlast _ b h, ?_⟩
  obtain ⟨b₀', b₁, h₀', h₁, _⟩ : ∃ b₀' b₁ : Builder .articles, new .articles "Article" = .ok b₀' ∧
      b₀'.applyAll [.join "author" [.shape (.limit 5), .shape (.fetchRelation ["team"])]] =
        .ok b₁ ∧ True :=
    exists_run (by decide +kernel) fun _ _ _ _ => trivial
  cases h₀.symm.trans h₀'
  rw [applyAll_singleton] at h₁
  obtain ⟨haccepted, hspec⟩ := hinside b₀ _ (.new h₀)
  obtain ⟨_, b₂, h₂⟩ := haccepted.1 ⟨b₁, h₁⟩
  obtain ⟨heq, hpaths⟩ := hspec b₁ b₂ h₁ h₂
  refine ⟨b₁, h₁, (hpaths _).2 (.inr ⟨by decide, ["author", "team"], ?_, by simp⟩), ?_⟩
  · decide +kernel
  · rw [heq]
    exact (sameShaping_of_apply rfl h₂).pagination

end Builder

end RowQuery
