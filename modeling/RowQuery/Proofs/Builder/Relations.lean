import RowQuery.Proofs.Builder.WellFormed
import RowQuery.Proofs.Directive.Chains

/-!
# No declared relation is lost

The paths that an accepted list declares are the prefixes of the chains that its directives name, by
whichever way they come in, and the tree has no other form than these paths give it
(`mem_paths_iff_declares`). So the order of the calls makes no difference.
-/

namespace RowQuery

theorem Shaping.filled_declared (step : Shaping) : RelationTree.Filled step.declared := by
  cases step with
  | fetchRelation hops => exact RelationTree.filled_atPath_load _
  | _ => trivial

namespace Builder

variable {σ : Schema} {b : Builder σ}

theorem filled_of_write {b' : Builder σ} {call : Call} {path : String} {c : Condition}
    (hb : RelationTree.Filled b.spec.relations) (h : b.write call path c = .ok b') :
    RelationTree.Filled b'.spec.relations := by
  obtain ⟨_, p, _, _, t, _, rfl⟩ := write_eq_ok.1 h
  exact hb.merge (RelationTree.filled_atPath_load p.hops)

/-- In no builder a relation stands over an empty tree. -/
theorem Reachable.filled (hb : b.Reachable) : RelationTree.Filled b.spec.relations := by
  induction hb with
  | new h =>
    obtain ⟨_, _, _, rfl⟩ := new_eq_ok.1 h
    exact RelationTree.filled_nil
  | filter _ h ih =>
    rcases filter_eq_ok.1 h with ⟨_, _, rfl⟩ | ⟨c, _, hw⟩
    · exact ih
    · exact filled_of_write ih hw
  | oneOf _ h ih =>
    obtain ⟨_, b₁, hw, rfl⟩ := oneOf_eq_ok.1 h
    have hb₁ : RelationTree.Filled b₁.spec.relations := filled_of_write ih hw
    exact hb₁
  | joinScope _ h =>
    obtain ⟨_, _, s, _, _, rfl⟩ := joinScope_eq_ok.1 h
    exact RelationTree.filled_nil
  | @join b sub b' p _ _ h ih ihsub =>
    have hbelow := RelationTree.filled_atPath (.above ihsub) p.segments
    obtain ⟨_, _, _, u, _, ⟨_, rfl⟩ | ⟨_, t, _, rfl⟩⟩ := join_eq_ok.1 h
    · exact ih.merge hbelow
    · exact ih.merge hbelow
  | branchScope _ h =>
    obtain ⟨_, t, _, rfl⟩ := branchScope_eq_ok.1 h
    exact RelationTree.filled_nil
  | or _ _ h ih ihsubs =>
    obtain ⟨_, _, _, rfl⟩ := or_eq_ok.1 h
    exact List.foldlRecOn _ _ ih fun r hr sub hsub => hr.merge (ihsubs sub hsub)
  | @shaped b _ step _ h ih =>
    obtain ⟨_, rfl⟩ := shaped_eq_ok.1 h
    have hstep := step.relations_reshape b.spec
    exact hstep ▸ ih.merge step.filled_declared

theorem containsPath_iff_declares {entity : String} {b₀ : Builder σ} {ds : List Directive}
    (h₀ : new σ entity = .ok b₀) (h : b₀.applyAll ds = .ok b) {ks : List String} (hne : ks ≠ []) :
    b.spec.relations.containsPath ks = true ↔ Declares ds ks := by
  obtain ⟨s, _, _, rfl⟩ := new_eq_ok.1 h₀
  have hrelations : b.spec.relations = RelationTree.declareAll [] ds :=
    (ran_of_applyAll h).relations
  rw [hrelations, spans_declareAll ds RelationTree.spans_nil ks hne, Declares, List.nil_append]
  exact (and_iff_right hne).symm

/-- Accepted lists that declare the same paths lead to the same tree, on any schemas. -/
theorem relations_eq_of_declares {σ' : Schema} {entity entity' : String} {b₀ : Builder σ}
    {b₀' b' : Builder σ'} {ds ds' : List Directive} (h₀ : new σ entity = .ok b₀)
    (h : b₀.applyAll ds = .ok b) (h₀' : new σ' entity' = .ok b₀') (h' : b₀'.applyAll ds' = .ok b')
    (hsame : ∀ ks, Declares ds' ks ↔ Declares ds ks) : b'.spec.relations = b.spec.relations := by
  have hb : b.Reachable := (Reachable.new h₀).applyAll h
  have hb' : b'.Reachable := (Reachable.new h₀').applyAll h'
  refine RelationTree.eq_of_containsPath _ hb'.wellFormed.relations.ordered
    hb.wellFormed.relations.ordered hb'.filled hb.filled fun ks => ?_
  by_cases hne : ks = []
  · rw [hne, RelationTree.containsPath_nil, RelationTree.containsPath_nil]
  · rw [Bool.eq_iff_iff, containsPath_iff_declares h₀' h' hne, hsame,
      containsPath_iff_declares h₀ h hne]

/-- The paths that an accepted list leads to are the ones it declares. No relation stands over an
empty tree, and any other list that is accepted, on any schema, leads to the same tree if it
declares the same paths. -/
theorem mem_paths_iff_declares {entity : String} {b₀ b : Builder σ} {ds : List Directive}
    (h₀ : new σ entity = .ok b₀) (h : b₀.applyAll ds = .ok b) :
    (∀ ks, ks ∈ b.spec.relations.paths ↔ Declares ds ks) ∧
      RelationTree.Filled b.spec.relations ∧
      ∀ {σ' : Schema} {entity' : String} {b₀' b' : Builder σ'} {ds' : List Directive},
        new σ' entity' = .ok b₀' → b₀'.applyAll ds' = .ok b' →
        (∀ ks, Declares ds' ks ↔ Declares ds ks) → b'.spec.relations = b.spec.relations := by
  have hb : b.Reachable := (Reachable.new h₀).applyAll h
  refine ⟨fun ks => ?paths, hb.filled, ?same⟩
  case paths =>
    rw [RelationTree.mem_paths _ hb.wellFormed.relations.ordered]
    constructor
    · rintro ⟨hne, hks⟩
      exact (containsPath_iff_declares h₀ h hne).1 hks
    · intro hks
      exact ⟨hks.1, (containsPath_iff_declares h₀ h hks.1).2 hks⟩
  case same => exact fun h₀' h' hsame => relations_eq_of_declares h₀ h h₀' h' hsame

/-- The relation is marked before its team is declared, or after the chain is closed. -/
theorem mem_paths_articles_iff_declares :
    ∃ b₀ b : Builder .articles, new .articles "Article" = .ok b₀ ∧
      b₀.applyAll
        [.shape (.fetchRelation ["author"]), .filter "author.name" (.compare .lt .null),
          .join "author" [.shape (.fetchRelation ["team"])],
          .or [[.filter "author.team.name" .notNull], []]] = .ok b ∧
      ∃ b', b₀.applyAll
        [.filter "author.name" (.compare .lt .null),
          .join "author" [.shape (.fetchRelation ["team"])],
          .or [[.filter "author.team.name" .notNull], []],
          .shape (.fetchRelation ["author"])] = .ok b' ∧
        ["author", "team"] ∈ b.spec.relations.paths ∧ b'.spec.relations = b.spec.relations := by
  refine exists_run (by decide +kernel) fun b₀ b h₀ h => ?_
  obtain ⟨b₀', b', h₀', h', _⟩ : ∃ b₀' b' : Builder .articles,
      new .articles "Article" = .ok b₀' ∧ b₀'.applyAll
        [.filter "author.name" (.compare .lt .null),
          .join "author" [.shape (.fetchRelation ["team"])],
          .or [[.filter "author.team.name" .notNull], []],
          .shape (.fetchRelation ["author"])] = .ok b' ∧ True :=
    exists_run (by decide +kernel) fun _ _ _ _ => trivial
  cases h₀.symm.trans h₀'
  obtain ⟨hpaths, _, hsame⟩ := mem_paths_iff_declares h₀ h
  refine ⟨b', h', (hpaths _).2 ⟨by decide, ["author", "team"], by decide +kernel, by decide⟩, ?_⟩
  exact hsame h₀' h' (declares_of_perm (List.perm_append_singleton _ [_, _, _]))

end Builder

end RowQuery
