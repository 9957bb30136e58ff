import RowQuery.Proofs.Builder.Run
import RowQuery.Proofs.Sql.Spec

/-!
# Accepted queries have a statement

A builder checks each path when it comes, and the statement is made by a walk over the finished
trees. The two agree: whatever a builder accepts can be put into a statement, on any schema.
-/

namespace RowQuery

theorem mem_insertName {k field : String} {names : List String}
    (h : k ∈ insertName field names) : k = field ∨ k ∈ names := by
  induction names with
  | nil =>
    rw [insertName, List.mem_singleton] at h
    exact .inl h
  | cons n names ih =>
    unfold insertName at h
    split at h
    · exact List.mem_cons.1 h
    · split at h
      · exact .inr h
      · rcases List.mem_cons.1 h with rfl | h
        · exact .inr (.head _)
        · exact (ih h).imp_right (.tail _)

namespace Builder

variable {σ : Schema} {b b' : Builder σ}

theorem mem_setOrder {o : OrderBy} {field : String} {direction : Direction} {order : List OrderBy}
    (h : o ∈ setOrder field direction order) : o.field = field ∨ o ∈ order := by
  induction order with
  | nil =>
    rw [setOrder, List.mem_singleton] at h
    exact .inl (congrArg OrderBy.field h)
  | cons o' order ih =>
    unfold setOrder at h
    split at h
    · rcases List.mem_cons.1 h with h | h
      · exact .inl (congrArg OrderBy.field h)
      · exact .inr (.tail _ h)
    · rcases List.mem_cons.1 h with rfl | h
      · exact .inr (.head _)
      · exact (ih h).imp_right (.tail _)

/-! ### Fields that are named -/

/-- Sort keys and selected fields are plain fields of the entity. -/
structure NamesFields (b : Builder σ) : Prop where
  selection : ∀ k ∈ b.spec.selection, b.shape.HasPlain k
  order : ∀ o ∈ b.spec.order, b.shape.HasPlain o.field

theorem namesFields_of_new {entity : String} (h : new σ entity = .ok b) : b.NamesFields := by
  unfold new at h
  split at h
  · cases h
    exact ⟨nofun, nofun⟩
  · cases h

/-- Only shaping steps name fields. -/
theorem NamesFields.of_sameShaping (h : b.NamesFields) (hsame : SameShaping b b') :
    b'.NamesFields := by
  refine ⟨?_, ?_⟩
  · rw [hsame.selection, hsame.shape]
    exact h.selection
  · rw [hsame.order, hsame.shape]
    exact h.order

theorem NamesFields.shaped (h : b.NamesFields) {step : Shaping} (hb' : b.shaped step = .ok b') :
    b'.NamesFields := by
  obtain ⟨hvalid, rfl⟩ := shaped_eq_ok.1 hb'
  cases step with
  | sort direction field =>
    refine ⟨h.selection, fun o ho => ?_⟩
    rcases mem_setOrder ho with ho | ho
    · rw [ho]
      exact hvalid.2
    · exact h.order o ho
  | select field =>
    refine ⟨fun k hk => ?_, h.order⟩
    rcases mem_insertName hk with rfl | hk
    · exact hvalid.2
    · exact h.selection k hk
  | _ => exact ⟨h.selection, h.order⟩

theorem NamesFields.applyAll {ds : List Directive} (hb : b.NamesFields)
    (h : b.applyAll ds = .ok b') : b'.NamesFields := by
  induction ds generalizing b with
  | nil =>
    cases h
    exact hb
  | cons d ds ih =>
    obtain ⟨b₁, hd, hrest⟩ := applyAll_cons_eq_ok.1 h
    have hb₁ : b₁.NamesFields := by
      by_cases hshape : d.isShaping = true
      · cases d with
        | shape step => exact hb.shaped hd
        | _ => cases hshape
      · exact hb.of_sameShaping (sameShaping_of_apply (by simpa using hshape) hd)
    exact ih hb₁ hrest

/-! ### Parts of accepted queries -/

section Accepted

variable {entity : String} {b₀ : Builder σ} {ds : List Directive}

theorem shape?_of_accepted (h₀ : new σ entity = .ok b₀) (h : b₀.applyAll ds = .ok b) :
    σ.shape? b.spec.entity = some b.shape := by
  obtain ⟨s, hs, _, rfl⟩ := new_eq_ok.1 h₀
  have hran := ran_of_applyAll h
  rw [hran.entity, hran.shape]
  exact hs

/-- The declared relations are chains of relations from the entity. -/
theorem relations_fit (h₀ : new σ entity = .ok b₀) (h : b₀.applyAll ds = .ok b) :
    RelationTree.Fits σ b.shape b.spec.relations := by
  obtain ⟨s, _, _, rfl⟩ := new_eq_ok.1 h₀
  have hran := ran_of_applyAll h
  rw [hran.relations, hran.shape]
  exact fits_declareAll ds hran.valid trivial

theorem alternatives_fit (h₀ : new σ entity = .ok b₀) (h : b₀.applyAll ds = .ok b)
    {t : PredicateTree} (ht : t ∈ b.spec.predicate.alternatives) :
    PredicateTree.Fits σ b.shape t := by
  obtain ⟨s, _, _, rfl⟩ := new_eq_ok.1 h₀
  have hran := ran_of_applyAll h
  rw [hran.predicate [] rfl, alternatives_outcome] at ht
  rw [hran.shape]
  exact fits_of_mem_alternatives hran.valid PredicateTree.fits_nil ht

/-- The conditions of every alternative only use declared relations. -/
theorem alternatives_covered (h₀ : new σ entity = .ok b₀) (h : b₀.applyAll ds = .ok b)
    {t : PredicateTree} (ht : t ∈ b.spec.predicate.alternatives) :
    t.CoveredBy b.spec.relations := by
  obtain ⟨s, _, _, rfl⟩ := new_eq_ok.1 h₀
  have hran := ran_of_applyAll h
  rw [hran.predicate [] rfl, alternatives_outcome] at ht
  rw [hran.relations]
  exact coveredBy_of_mem_alternatives (t := []) trivial ht

end Accepted

/-! ### Statements of accepted queries -/

/-- Every query that a builder accepts has a statement, since each chain of keys to a nested tree of
an alternative is a declared chain of relations. -/
theorem exists_ofSpec_of_applyAll {entity : String} {b₀ b : Builder σ} {ds : List Directive}
    (h₀ : new σ entity = .ok b₀) (h : b₀.applyAll ds = .ok b) :
    (∃ stmt, Sql.Select.ofSpec σ b.spec = .ok stmt) ∧
      ∀ t ∈ b.spec.predicate.alternatives, ∀ ks u, PredicateTree.find? ks t = some (.nested u) →
        b.spec.relations.containsPath ks = true := by
  have hfields := (namesFields_of_new h₀).applyAll h
  constructor
  · exact Sql.exists_ofSpec (shape?_of_accepted h₀ h) (relations_fit h₀ h) hfields.selection
      hfields.order fun t ht => ⟨alternatives_fit h₀ h ht, alternatives_covered h₀ h ht⟩
  · intro t ht ks u hu
    exact PredicateTree.Covered.of_find?_eq_nested (alternatives_covered h₀ h ht) hu

/-- A join before alternatives, of which one has alternatives of its own that reach further. -/
theorem exists_ofSpec_articles :
    ∃ b₀ b : Builder .articles, new .articles "Article" = .ok b₀ ∧
      b₀.applyAll
        [.join "author.team" [.filter "name" (.eq (.string "core"))],
          .or [[.filter "author.name" (.eq (.string "Ada"))],
            [.or [[.filter "title" .notNull], [.join "author" [.filter "team.name" .null]]]]],
          .shape (.sort .asc "title")] = .ok b ∧
      (∃ stmt, Sql.Select.ofSpec .articles b.spec = .ok stmt) ∧
        ∀ t ∈ b.spec.predicate.alternatives, ∀ ks u, PredicateTree.find? ks t = some (.nested u) →
          b.spec.relations.containsPath ks = true := by
  exact exists_run (by decide +kernel) fun b₀ b h₀ h => exists_ofSpec_of_applyAll h₀ h

end Builder

end RowQuery
