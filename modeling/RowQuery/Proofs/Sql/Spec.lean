import RowQuery.Proofs.Directive.Declared
import RowQuery.Sql.Spec

/-!
# Specifications that have a statement

Trees that fit the shape of the entity can be put into a statement: each declared relation becomes a
join, and each condition a test, as long as the chain to every nested tree is declared.
-/

namespace RowQuery.Sql

variable {σ : Schema} {s : Shape}

theorem relationOf_eq_ok {field path : String} {r : Relation} :
    relationOf s field path = .ok r ↔ ∃ f, s.field? field = some f ∧ f.relation? = some r := by
  simp only [relationOf, bind_eq_ok, Shape.requireField_eq_ok]
  constructor
  · rintro ⟨f, hf, h⟩
    cases hr : f.relation? with
    | none =>
      simp only [hr] at h
      cases h
    | some r' =>
      simp only [hr] at h
      cases h
      exact ⟨f, hf, hr⟩
  · rintro ⟨f, hf, hr⟩
    refine ⟨f, hf, ?_⟩
    simp only [hr]
    rfl

/-- A relation of the shape is found, and so is the shape that it leads to. -/
theorem exists_relationOf {s' : Shape} {field : String} (h : σ.related? s field = some s')
    (path : String) : ∃ r, relationOf s field path = .ok r ∧ σ.shape r.target = .ok s' := by
  obtain ⟨f, r, hf, hr, hs'⟩ := Schema.related?_eq_some.1 h
  exact ⟨r, relationOf_eq_ok.2 ⟨f, hf, hr⟩, Schema.shape_eq_ok.2 hs'⟩

/-! ### Joins -/

mutual

theorem exists_joinsBelow : {s : Shape} → (path : String) → (n : RelationNode) → n.Fits σ s →
    ∃ js, joinsBelow σ s path n = .ok js
  | _, _, .load, _ => ⟨[], rfl⟩
  | _, path, .nested t, h => exists_joinsOf path t h

/-- Every declared relation can be joined. -/
theorem exists_joinsOf : {s : Shape} → (parent : String) → (t : List (String × RelationNode)) →
    RelationTree.Fits σ s t → ∃ js, joinsOf σ s parent t = .ok js
  | _, _, [], _ => ⟨[], rfl⟩
  | s, parent, (name, node) :: t, ⟨⟨s', hs', hnode⟩, ht⟩ => by
    obtain ⟨r, hr, htarget⟩ := exists_relationOf hs' (pathBelow parent name)
    obtain ⟨below, hbelow⟩ := exists_joinsBelow (pathBelow parent name) node hnode
    obtain ⟨rest, hrest⟩ := exists_joinsOf parent t ht
    refine ⟨⟨pathBelow parent name, tableAt parent, s', r⟩ :: below ++ rest, ?_⟩
    unfold joinsOf
    refine bind_eq_ok.2 ⟨r, hr, bind_eq_ok.2 ⟨s', htarget, bind_eq_ok.2 ⟨below, hbelow, ?_⟩⟩⟩
    exact bind_eq_ok.2 ⟨rest, hrest, rfl⟩

end

/-! ### Tests -/

/-- The text of a chain grows by a dot and a name. -/
theorem pathBelow_joinDots {ks : List String} (hks : ∀ k ∈ ks, IsSegment k) (k : String) :
    pathBelow (FieldPath.joinDots ks) k = FieldPath.joinDots (ks ++ [k]) := by
  unfold pathBelow
  by_cases hne : ks = []
  · subst hne
    rfl
  · rw [if_neg (FieldPath.joinDots_ne_empty hne hks), FieldPath.joinDots_concat hne]

theorem dotPieces_pathBelow {ks : List String} (hks : ∀ k ∈ ks, IsSegment k) {k : String}
    (hk : IsSegment k) : dotPieces (pathBelow (FieldPath.joinDots ks) k) = ks ++ [k] := by
  have hall : ∀ l ∈ ks ++ [k], IsSegment l := by
    intro l hl
    rcases List.mem_append.1 hl with hl | hl
    · exact hks l hl
    · rw [List.mem_singleton.1 hl]
      exact hk
  rw [pathBelow_joinDots hks, FieldPath.dotPieces_joinDots (by simp) hall]

theorem exists_requireField {key : String} (h : s.HasPlain key) :
    ∃ f, s.requireField key = .ok f := by
  obtain ⟨f, hf, _⟩ := h
  exact ⟨f, Shape.requireField_eq_ok.2 hf⟩

mutual

theorem exists_testsOf {r : RelationTree} : {s : Shape} → {ks : List String} → {k : String} →
    (c : Condition) → (∀ l ∈ ks, IsSegment l) → IsSegment k → c.Fits σ s k →
    c.Covered (fun ls => r.containsPath (ks ++ k :: ls) = true) →
    ∃ ts, testsOf σ r s (FieldPath.joinDots ks) k c = .ok ts
  | _, _, _, .value _, _, _, h, _ => by
    obtain ⟨f, hf⟩ := exists_requireField h
    exact ⟨_, bind_eq_ok.2 ⟨f, hf, rfl⟩⟩
  | _, _, _, .op _, _, _, h, _ => by
    obtain ⟨f, hf⟩ := exists_requireField h
    exact ⟨_, bind_eq_ok.2 ⟨f, hf, rfl⟩⟩
  | s, ks, k, .nested t, hks, hk, ⟨_, s', hs', ht⟩, ⟨hdecl, hcov⟩ => by
    obtain ⟨rel, hrel, htarget⟩ := exists_relationOf hs' (pathBelow (FieldPath.joinDots ks) k)
    have hks' : ∀ l ∈ ks ++ [k], IsSegment l := by
      simpa only [List.forall_mem_append, List.forall_mem_singleton] using ⟨hks, hk⟩
    have hcov' : PredicateTree.Covered
        (fun ls => r.containsPath ((ks ++ [k]) ++ ls) = true) t := by
      simpa only [List.append_assoc, List.singleton_append] using hcov
    obtain ⟨ts, hts⟩ := exists_tests t hks' ht hcov'
    refine ⟨ts, ?_⟩
    unfold testsOf
    refine bind_eq_ok.2 ⟨rel, hrel, bind_eq_ok.2 ⟨(), ?_, bind_eq_ok.2 ⟨s', htarget, ?_⟩⟩⟩
    · rw [refuseIf_eq_ok, dotPieces_pathBelow hks hk, hdecl]
      simp
    · rw [pathBelow_joinDots hks]
      exact hts

/-- A tree that fits, with every nested chain declared, can be tested. The chain `ks` is the one that
leads from the entity to the tree. -/
theorem exists_tests {r : RelationTree} : {s : Shape} → {ks : List String} →
    (t : List (String × Condition)) → (∀ l ∈ ks, IsSegment l) → PredicateTree.Fits σ s t →
    PredicateTree.Covered (fun ls => r.containsPath (ks ++ ls) = true) t →
    ∃ ts, tests σ r s (FieldPath.joinDots ks) t = .ok ts
  | _, _, [], _, _, _ => ⟨[], rfl⟩
  | s, ks, (k, c) :: t, hks, ⟨_, hk, hc, ht⟩, ⟨hcov, hcovt⟩ => by
    obtain ⟨ts, hts⟩ := exists_testsOf c hks hk hc hcov
    obtain ⟨rest, hrest⟩ := exists_tests t hks ht hcovt
    refine ⟨ts ++ rest, ?_⟩
    unfold tests
    exact bind_eq_ok.2 ⟨ts, hts, bind_eq_ok.2 ⟨rest, hrest, rfl⟩⟩

end

/-- A predicate can be tested if each of its alternatives can. -/
theorem exists_whereOf {r : RelationTree} {p : Predicate}
    (h : ∀ t ∈ p.alternatives, ∃ ts, tests σ r s "" t = .ok ts) :
    ∃ w, whereOf σ r s p = .ok w := by
  cases p with
  | all t =>
    obtain ⟨ts, hts⟩ := h t (by simp [Predicate.alternatives])
    exact ⟨.all ts, bind_eq_ok.2 ⟨ts, hts, rfl⟩⟩
  | any branches =>
    have hall : ∃ tss, branches.mapM (tests σ r s "") = .ok tss := by
      unfold Predicate.alternatives at h
      induction branches with
      | nil => exact ⟨[], rfl⟩
      | cons t branches ih =>
        obtain ⟨hhead, htail⟩ := List.forall_mem_cons.1 h
        obtain ⟨ts, hts⟩ := hhead
        obtain ⟨tss, htss⟩ := ih htail
        refine ⟨ts :: tss, ?_⟩
        rw [List.mapM_cons]
        exact bind_eq_ok.2 ⟨ts, hts, bind_eq_ok.2 ⟨tss, htss, rfl⟩⟩
    obtain ⟨tss, htss⟩ := hall
    exact ⟨.any tss, bind_eq_ok.2 ⟨tss, htss, rfl⟩⟩

/-! ### Statements -/

theorem requireFields_of_hasPlain {names : List String} (h : ∀ k ∈ names, s.HasPlain k) :
    s.requireFields names = .ok () := by
  refine Shape.requireFields_eq_ok.2 fun k hk => ?_
  obtain ⟨f, hf, _⟩ := h k hk
  rw [hf]
  rfl

/-- A specification has a statement if all its parts fit the shape of its entity and the conditions
only use declared relations. -/
theorem exists_ofSpec {q : QuerySpec} (hs : σ.shape? q.entity = some s)
    (hrelations : RelationTree.Fits σ s q.relations)
    (hselection : ∀ k ∈ q.selection, s.HasPlain k) (horder : ∀ o ∈ q.order, s.HasPlain o.field)
    (hpredicate : ∀ t ∈ q.predicate.alternatives,
      PredicateTree.Fits σ s t ∧ t.CoveredBy q.relations) :
    ∃ stmt, Select.ofSpec σ q = .ok stmt := by
  obtain ⟨js, hjs⟩ := exists_joinsOf "" q.relations hrelations
  obtain ⟨w, hw⟩ : ∃ w, whereOf σ q.relations s q.predicate = .ok w := by
    refine exists_whereOf fun t ht => ?_
    obtain ⟨hfits, hcov⟩ := hpredicate t ht
    exact @exists_tests _ _ _ [] t nofun hfits hcov
  have horder' : s.requireFields (q.order.map OrderBy.field) = .ok () := by
    refine requireFields_of_hasPlain fun k hk => ?_
    obtain ⟨o, ho, rfl⟩ := List.mem_map.1 hk
    exact horder o ho
  have hselection' := requireFields_of_hasPlain hselection
  simp only [Select.ofSpec, bind_eq_ok]
  exact ⟨_, s, Schema.shape_eq_ok.2 hs, js, hjs, (), hselection', w, hw, (), horder', rfl⟩

end RowQuery.Sql
