import RowQuery.Proofs.Builder.Run
import RowQuery.Proofs.Directive.Leaves

/-!
# Alternatives distribute over the conjunction before them

The predicate of a query with alternatives has one tree for every innermost branch. Such a tree
keeps all leaves of the conjunction that its branch started from, except where the branch itself
wrote something else, and has nothing from any other branch.
-/

namespace RowQuery

/-! ### The conjunction before alternatives -/

/-- From the conjunction `t`, the list `ds` comes to a list of alternatives with the conjunction `u`
before it, on its own level or further inside. -/
inductive ReachesOr : (t : PredicateTree) → (ds : List Directive) → (u : PredicateTree) →
    (branches : List (List Directive)) → Prop where
  | here (t : PredicateTree) {before : List Directive} (hbefore : Conjunctive before)
      (branches : List (List Directive)) (after : List Directive) :
      ReachesOr t (before ++ .or branches :: after) (t.conjoinAll before) branches
  | inside {t u : PredicateTree} {before br : List Directive} (hbefore : Conjunctive before)
      {outer inner : List (List Directive)} (after : List Directive) (hbr : br ∈ outer)
      (h : ReachesOr (t.conjoinAll before) br u inner) :
      ReachesOr t (before ++ .or outer :: after) u inner

variable {t u : PredicateTree} {ds : List Directive} {branches : List (List Directive)}

/-- The branches start from the conjunction before the alternatives, each on its own. -/
theorem alternatives_append_or {before : List Directive} (hbefore : Conjunctive before)
    (t : PredicateTree) (branches : List (List Directive)) (after : List Directive) :
    alternatives t (before ++ .or branches :: after) =
      branches.flatMap (alternatives (t.conjoinAll before)) := by
  induction before generalizing t with
  | nil => rw [List.nil_append, alternatives_or, branchAlternatives_eq_flatMap]; rfl
  | cons d before ih =>
    obtain ⟨hd, hbefore⟩ := conjunctive_cons.1 hbefore
    rw [List.cons_append, alternatives_cons hd, ih hbefore]
    rfl

/-- What the branches of reached alternatives lead to is in the end among the alternatives. -/
theorem ReachesOr.mem_alternatives (h : ReachesOr t ds u branches) {br : List Directive}
    (hbr : br ∈ branches) {v : PredicateTree} (hv : v ∈ alternatives u br) :
    v ∈ alternatives t ds := by
  induction h with
  | here t hbefore branches after =>
    rw [alternatives_append_or hbefore]
    exact List.mem_flatMap.2 ⟨br, hbr, hv⟩
  | inside hbefore after houter _ ih =>
    rw [alternatives_append_or hbefore]
    exact List.mem_flatMap.2 ⟨_, houter, ih hbr hv⟩

theorem Directive.allValid_append_or {σ : Schema} {s : Shape} {before after : List Directive}
    (h : Directive.AllValid σ s (before ++ .or branches :: after)) :
    Directive.AllValid σ s before ∧ ∀ br ∈ branches, Directive.AllValid σ s br := by
  rw [Directive.allValid_iff, List.forall_mem_append, List.forall_mem_cons] at h
  obtain ⟨hbefore, hor, _⟩ := h
  exact ⟨Directive.allValid_iff.2 hbefore, Directive.branchesValid_iff.1 hor⟩

/-- The parts of valid directives are valid, and the conjunctions on the way fit the shape. -/
theorem ReachesOr.valid {σ : Schema} {s : Shape} (h : ReachesOr t ds u branches)
    (hds : Directive.AllValid σ s ds) (ht : PredicateTree.Fits σ s t) :
    (∀ br ∈ branches, Directive.AllValid σ s br) ∧ PredicateTree.Fits σ s u := by
  induction h with
  | here t hbefore branches after =>
    obtain ⟨hvalid, hbranches⟩ := Directive.allValid_append_or hds
    exact ⟨hbranches, fits_conjoinAll _ hvalid ht⟩
  | inside hbefore after hbr _ ih =>
    obtain ⟨hvalid, hbranches⟩ := Directive.allValid_append_or hds
    exact ih (hbranches _ hbr) (fits_conjoinAll _ hvalid ht)

/-! ### Leaves of alternatives -/

/-- A tree of a branch has the leaves that the branch wrote last, and elsewhere those of the
conjunction that it started from. -/
theorem exists_choice_of_mem_alternatives {σ : Schema} {s : Shape}
    (hds : Directive.AllValid σ s ds) (ht : PredicateTree.Fits σ s t)
    (hu : u ∈ alternatives t ds) :
    ∃ run ∈ choices ds, ∀ ks, u.leaf? ks = (lastWritten ks (writesAll run)).or (t.leaf? ks) := by
  rw [alternatives_eq_map] at hu
  obtain ⟨run, hrun, rfl⟩ := List.mem_map.1 hu
  have hvalid := Directive.allValid_of_mem_choices hrun hds
  exact ⟨run, hrun, fun ks => leaf?_conjoinAll run hvalid ht ks⟩

namespace Builder

variable {σ : Schema}

/-- Without alternatives, a list that is accepted after the conjunction `t` leads to one more
conjunction. -/
theorem predicate_of_conjunctive {b b' : Builder σ} (ht : b.spec.predicate = .all t)
    (hds : Conjunctive ds) (h : b.applyAll ds = .ok b') :
    b'.spec.predicate = .all (t.conjoinAll ds) := by
  rw [(ran_of_applyAll h).predicate t ht]
  exact outcome_eq_all_iff.2 ⟨hds, rfl⟩

/-- The predicate of an accepted list with alternatives has exactly the trees that the conjunction
is distributed over. Each keeps the leaves of the conjunction before its alternatives, at every
depth, but for those that its own branch writes. -/
theorem predicate_eq_any_alternatives {entity : String} {b₀ b : Builder σ}
    (h₀ : new σ entity = .ok b₀) (h : b₀.applyAll ds = .ok b) (hor : .or branches ∈ ds) :
    b.spec.predicate = .any (alternatives [] ds) ∧
      (∀ (b₁ b₂ : Builder σ) t es, b₁.spec.predicate = .all t → Conjunctive es →
        b₁.applyAll es = .ok b₂ →
          b₂.spec.predicate = .all (t.conjoinAll es) ∧ alternatives t es = [t.conjoinAll es]) ∧
      (∀ t before branches after, Conjunctive before →
        alternatives t (before ++ .or branches :: after) =
          branches.flatMap (alternatives (t.conjoinAll before))) ∧
      ∀ t branches, ReachesOr [] ds t branches → ∀ br ∈ branches, ∀ u ∈ alternatives t br,
        u ∈ alternatives [] ds ∧ ∃ run ∈ choices br, ∀ ks,
          u.leaf? ks = (lastWritten ks (writesAll run)).or (t.leaf? ks) := by
  obtain ⟨s, hs, _, rfl⟩ := new_eq_ok.1 h₀
  have hran := ran_of_applyAll h
  refine ⟨?_, ?_, ?_, ?_⟩
  · have hany : ds.any Directive.isOr = true := List.any_eq_true.2 ⟨_, hor, rfl⟩
    rw [hran.predicate [] rfl, outcome, if_pos hany]
  · intro b₁ b₂ t es ht hes hrun
    exact ⟨predicate_of_conjunctive ht hes hrun, alternatives_of_conjunctive hes t⟩
  · intro t before branches after hbefore
    exact alternatives_append_or hbefore t branches after
  · intro t branches hreach br hbr u hu
    obtain ⟨hbranches, ht⟩ := hreach.valid hran.valid PredicateTree.fits_nil
    have hchoice := exists_choice_of_mem_alternatives (hbranches br hbr) ht hu
    exact ⟨hreach.mem_alternatives hbr hu, hchoice⟩

/-- The team of the author stays a condition in each of three alternatives, two of which are nested
and one of which writes next to it. -/
theorem predicate_articles_eq_any :
    ∃ b₀ b : Builder .articles, new .articles "Article" = .ok b₀ ∧
      b₀.applyAll
        [.join "author.team" [.filter "name" (.eq (.string "core"))],
          .or [[.filter "author.name" (.eq (.string "Ada"))],
            [.or [[.filter "title" .notNull], [.join "author" [.filter "name" .null]]]]]] = .ok b ∧
      b.spec.predicate.alternatives.length = 3 ∧
      ∀ u ∈ b.spec.predicate.alternatives,
        (PredicateTree.leaf? ["author", "team", "name"] u).isSome = true := by
  refine exists_run (by decide +kernel) fun b₀ b h₀ h => ?_
  obtain ⟨hany, _, hdistribute, hleaves⟩ :=
    predicate_eq_any_alternatives h₀ h (.tail _ (.head _))
  rw [hany]
  refine ⟨by decide +kernel, fun u hu => ?_⟩
  have hbefore : Conjunctive [.join "author.team" [.filter "name" (.eq (.string "core"))]] := by
    simp [Conjunctive, Directive.isOr]
  have hu := (hdistribute [] _ _ [] hbefore ▸ hu :)
  obtain ⟨br, hbr, hu⟩ := List.mem_flatMap.1 hu
  obtain ⟨_, run, _, hrun⟩ := hleaves _ _ (.here [] hbefore _ []) br hbr u hu
  rw [hrun, Option.isSome_or, Bool.or_eq_true]
  exact .inr (by decide +kernel)

/-! ### Sub-queries that are handed back -/

/-- Alternatives lose no condition if each sub-query that is handed back grew from the seed that was
handed out. -/
theorem isSome_leaf?_of_or {b b' : Builder σ} (ht : b.spec.predicate = .all t)
    (hfits : PredicateTree.Fits σ b.shape t) {subs : List (Builder σ)}
    (hgrown : ∀ sub ∈ subs, ∃ seed ds, b.branchScope = .ok seed ∧ seed.applyAll ds = .ok sub)
    (h : b.or subs = .ok b') (hu : u ∈ b'.spec.predicate.alternatives) {ks : List String}
    (hks : (t.leaf? ks).isSome = true) : (u.leaf? ks).isSome = true := by
  obtain ⟨_, _, _, rfl⟩ := or_eq_ok.1 h
  obtain ⟨sub, hsub, hu⟩ := List.mem_flatMap.1 hu
  obtain ⟨seed, ds, hseed, hrun⟩ := hgrown sub hsub
  obtain ⟨_, t', ht', rfl⟩ := branchScope_eq_ok.1 hseed
  rw [ht] at ht'
  cases ht'
  have hran := ran_of_applyAll hrun
  rw [hran.predicate t rfl, alternatives_outcome] at hu
  obtain ⟨run, _, hrun⟩ := exists_choice_of_mem_alternatives hran.valid hfits hu
  rw [hrun, Option.isSome_or, hks, Bool.or_true]

-- The scope and the entity do not tell the seeds of two queries apart: one that was kept from
-- another query is taken back, and the condition on the title is gone.
example :
    (do
      let kept ← (← new .articles "Article").branchScope
      let b ← (← new .articles "Article").filter "title" .notNull
      let b' ← b.or [kept]
      return b'.spec.predicate.alternatives.map fun u =>
        (PredicateTree.leaf? ["title"] u).isSome).toOption = some [false] := by
  decide +kernel

end Builder

end RowQuery
