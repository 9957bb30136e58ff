import RowQuery.Proofs.Directive.Valid

/-!
# What directives declare

A list of directives adds a set of chains to the declared ones, and this set does not depend on what
was declared before (`containsPath_declareAll`). Every chain that the conditions of an alternative
use is among the chains that the whole list declares (`covered_of_mem_alternatives`), though the
branches themselves start with nothing declared.
-/

namespace RowQuery

/-! ### Order of keys -/

theorem Shaping.ordered_declared (step : Shaping) : RelationTree.Ordered step.declared := by
  cases step with
  | fetchRelation hops => exact RelationTree.ordered_atPath_load _
  | _ => trivial

mutual

theorem Directive.ordered_declare : {r : RelationTree} → (d : Directive) →
    RelationTree.Ordered r → RelationTree.Ordered (d.declare r)
  | r, .filter path f, hr => by
    rw [Directive.declare]
    split
    · exact hr.merge (RelationTree.ordered_atPath_load _)
    · exact hr
  | _, .oneOf _ _, hr => hr.merge (RelationTree.ordered_atPath_load _)
  | _, .join _ ds, hr =>
    hr.merge (RelationTree.ordered_atPath (.above (ordered_declareAll ds RelationTree.ordered_nil)) _)
  | _, .or branches, hr => ordered_declareBranches branches hr
  | _, .shape step, hr => hr.merge step.ordered_declared

theorem ordered_declareAll : {r : RelationTree} → (ds : List Directive) →
    RelationTree.Ordered r → RelationTree.Ordered (r.declareAll ds)
  | _, [], hr => hr
  | _, d :: ds, hr => ordered_declareAll ds (Directive.ordered_declare d hr)

theorem ordered_declareBranches : {r : RelationTree} → (branches : List (List Directive)) →
    RelationTree.Ordered r → RelationTree.Ordered (r.declareBranches branches)
  | _, [], hr => hr
  | _, ds :: branches, hr =>
    ordered_declareBranches branches (hr.merge (ordered_declareAll ds RelationTree.ordered_nil))

end

/-! ### Added chains -/

namespace RelationTree

theorem containsPath_nil_merge {t : RelationTree} (ht : Ordered t) (ks : List String) :
    containsPath ks (merge [] t) = containsPath ks t := by
  rw [containsPath_merge ht, containsPath_empty]
  cases ks <;> simp

/-- What a merge adds to some tree is what it makes of the empty one. -/
theorem containsPath_merge_eq_or {t : RelationTree} (ht : Ordered t) (r : RelationTree)
    (ks : List String) :
    containsPath ks (r.merge t) = (containsPath ks r || containsPath ks (merge [] t)) := by
  rw [containsPath_merge ht, containsPath_nil_merge ht]

theorem containsPath_eq_or_empty (r : RelationTree) (ks : List String) :
    containsPath ks r = (containsPath ks r || containsPath ks []) := by
  cases ks <;> simp

end RelationTree

mutual

theorem Directive.containsPath_declare (ks : List String) : (r : RelationTree) → (d : Directive) →
    (d.declare r).containsPath ks = (r.containsPath ks || (d.declare []).containsPath ks)
  | r, .filter path f => by
    rw [Directive.declare, Directive.declare]
    split
    · exact RelationTree.containsPath_merge_eq_or (RelationTree.ordered_atPath_load _) r ks
    · exact RelationTree.containsPath_eq_or_empty r ks
  | r, .oneOf path vs =>
    RelationTree.containsPath_merge_eq_or (RelationTree.ordered_atPath_load _) r ks
  | r, .join relation ds =>
    have hbelow := RelationNode.Ordered.above (ordered_declareAll ds RelationTree.ordered_nil)
    RelationTree.containsPath_merge_eq_or (RelationTree.ordered_atPath hbelow _) r ks
  | r, .or branches => containsPath_declareBranches ks r branches
  | r, .shape step => RelationTree.containsPath_merge_eq_or step.ordered_declared r ks

/-- A list of directives declares the same chains whatever is declared already. -/
theorem containsPath_declareAll (ks : List String) : (r : RelationTree) → (ds : List Directive) →
    (r.declareAll ds).containsPath ks =
      (r.containsPath ks || (RelationTree.declareAll [] ds).containsPath ks)
  | r, [] => RelationTree.containsPath_eq_or_empty r ks
  | r, d :: ds => by
    rw [RelationTree.declareAll, RelationTree.declareAll, containsPath_declareAll ks (d.declare r),
      containsPath_declareAll ks (d.declare []), Directive.containsPath_declare ks r, Bool.or_assoc]

theorem containsPath_declareBranches (ks : List String) : (r : RelationTree) →
    (branches : List (List Directive)) →
    (r.declareBranches branches).containsPath ks =
      (r.containsPath ks || (RelationTree.declareBranches [] branches).containsPath ks)
  | r, [] => RelationTree.containsPath_eq_or_empty r ks
  | r, ds :: branches => by
    have hds := ordered_declareAll ds RelationTree.ordered_nil
    rw [RelationTree.declareBranches, RelationTree.declareBranches,
      containsPath_declareBranches ks (r.merge _),
      containsPath_declareBranches ks (RelationTree.merge [] _),
      RelationTree.containsPath_merge_eq_or hds r, Bool.or_assoc]

end

/-! ### Growth -/

namespace RelationTree

/-- Every chain that the one tree declares is declared by the other. -/
def Within (t u : RelationTree) : Prop :=
  ∀ ks, t.containsPath ks = true → u.containsPath ks = true

theorem Within.refl (t : RelationTree) : t.Within t := fun _ h => h

theorem Within.trans {t u v : RelationTree} (h : t.Within u) (h' : u.Within v) : t.Within v :=
  fun ks hks => h' ks (h ks hks)

variable {r : RelationTree}

theorem within_merge_left {t : RelationTree} (ht : Ordered t) : r.Within (r.merge t) := by
  intro ks hks
  rw [containsPath_merge ht, hks, Bool.true_or]

theorem within_merge_right {t : RelationTree} (ht : Ordered t) : t.Within (r.merge t) := by
  intro ks hks
  rw [containsPath_merge ht, hks, Bool.or_true]

theorem within_declareAll (ds : List Directive) : r.Within (r.declareAll ds) := by
  intro ks hks
  rw [containsPath_declareAll, hks, Bool.true_or]

theorem within_declareBranches (branches : List (List Directive)) :
    r.Within (r.declareBranches branches) := by
  intro ks hks
  rw [containsPath_declareBranches, hks, Bool.true_or]

theorem Within.declareAll {r' : RelationTree} (h : r.Within r') (ds : List Directive) :
    (r.declareAll ds).Within (r'.declareAll ds) := by
  intro ks hks
  rw [containsPath_declareAll, Bool.or_eq_true] at hks ⊢
  exact hks.imp_left (h ks)

/-- A branch adds nothing that its parent does not take over. -/
theorem within_declareBranches_of_mem {branches : List (List Directive)} {ds : List Directive}
    (h : ds ∈ branches) : (r.declareAll ds).Within (r.declareBranches branches) := by
  induction branches generalizing r with
  | nil => cases h
  | cons ds' branches ih =>
    have hds' := ordered_declareAll ds' RelationTree.ordered_nil
    rw [declareBranches]
    rcases List.mem_cons.1 h with rfl | h
    · intro ks hks
      apply within_declareBranches
      rwa [containsPath_merge hds', ← containsPath_declareAll]
    · exact ((within_merge_left hds').declareAll ds).trans (ih h)

/-- A choice of branches declares nothing that the whole list does not. -/
theorem within_of_mem_choices {ds run : List Directive} (h : run ∈ choices ds) :
    ∀ r : RelationTree, (r.declareAll run).Within (r.declareAll ds) := by
  refine choices_induction ?nil ?cons ?or h
  case nil => exact fun r => .refl r
  case cons => exact fun d ds run _ _ ih r => ih (d.declare r)
  case or =>
    intro branches ds br run hbr _ ih r
    rw [declareAll]
    exact ((ih r).trans (within_declareBranches_of_mem hbr)).trans (within_declareAll ds)

end RelationTree

/-! ### Chains of conditions -/

/-- The chain of keys to every nested tree is declared. -/
def PredicateTree.CoveredBy (r : RelationTree) (t : PredicateTree) : Prop :=
  Covered (fun ks => r.containsPath ks = true) t

namespace PredicateTree

variable {r : RelationTree} {t : PredicateTree}

theorem CoveredBy.mono {r' : RelationTree} (ht : t.CoveredBy r) (h : r.Within r') :
    t.CoveredBy r' :=
  Covered.mono t ht h

theorem coveredBy_atPath {ks : List String} (hks : r.containsPath ks.dropLast = true)
    {c : Condition} (hc : c.Covered fun ls => r.containsPath (ks ++ ls) = true) :
    CoveredBy r (atPath ks c) :=
  @covered_atPath (fun ks => r.containsPath ks = true)
    (fun _ _ h => RelationTree.containsPath_of_append h) ks hks c hc

/-- A leaf is covered once the hops of its path are declared. -/
theorem CoveredBy.write (ht : t.CoveredBy r) (path : String) {c : Condition} (hc : c.isLeaf) :
    CoveredBy (r.merge (.atPath (dotPieces path).dropLast .load))
      (t.merge (atPath (dotPieces path) c)) := by
  have hord := RelationTree.ordered_atPath_load (dotPieces path).dropLast
  have hhops := RelationTree.within_merge_right (r := r) hord _
    (RelationTree.containsPath_atPath_load (dotPieces path).dropLast)
  exact (ht.mono (RelationTree.within_merge_left hord)).merge
    (coveredBy_atPath hhops (Condition.covered_of_isLeaf hc))

/-- The tree of a sub-query is covered once its relation is declared over what it declares. -/
theorem CoveredBy.nest (ht : t.CoveredBy r) (relation : String) {r' : RelationTree}
    (hr' : RelationTree.Ordered r') {u : PredicateTree} (hu : u.CoveredBy r') :
    CoveredBy (r.merge (.atPath (dotPieces relation) (.above r')))
      (t.merge (atPath (dotPieces relation) (.nested u))) := by
  have hord := RelationTree.ordered_atPath (RelationNode.Ordered.above hr') (dotPieces relation)
  have hbelow : ∀ ls, r'.containsPath ls = true →
      (r.merge (.atPath (dotPieces relation) (.above r'))).containsPath
        (dotPieces relation ++ ls) = true := by
    intro ls hls
    apply RelationTree.within_merge_right hord
    rw [RelationTree.containsPath_atPath (dotPieces_ne_nil relation),
      RelationTree.contains_above, hls]
  have hrel := hbelow [] rfl
  have hhops := hrel
  rw [List.append_nil] at hhops
  exact (ht.mono (RelationTree.within_merge_left hord)).merge
    (coveredBy_atPath (RelationTree.containsPath_dropLast hhops)
      ⟨hrel, Covered.mono u hu hbelow⟩)

end PredicateTree

mutual

theorem Directive.coveredBy_conjoin : {r : RelationTree} → {t : PredicateTree} → (d : Directive) →
    t.CoveredBy r → (d.conjoin t).CoveredBy (d.declare r)
  | r, t, .filter path f, ht => by
    rw [Directive.conjoin, Directive.declare]
    cases hc : f.added? with
    | none => exact ht
    | some c => exact ht.write path (Filter.isLeaf_of_added? hc)
  | r, t, .oneOf path vs, ht => by
    rw [Directive.conjoin, Directive.declare]
    exact ht.write path trivial
  | r, t, .join relation ds, ht => by
    have hord := ordered_declareAll ds RelationTree.ordered_nil
    rw [Directive.conjoin, Directive.declare]
    split
    · have hrel := RelationTree.ordered_atPath (RelationNode.Ordered.above hord) (dotPieces relation)
      exact ht.mono (RelationTree.within_merge_left hrel)
    · exact ht.nest relation hord (coveredBy_conjoinAll (r := []) (t := []) ds trivial)
  | _, _, .or branches, ht => ht.mono (RelationTree.within_declareBranches branches)
  | _, _, .shape step, ht => ht.mono (RelationTree.within_merge_left step.ordered_declared)

theorem coveredBy_conjoinAll : {r : RelationTree} → {t : PredicateTree} → (ds : List Directive) →
    t.CoveredBy r → (t.conjoinAll ds).CoveredBy (r.declareAll ds)
  | _, _, [], ht => ht
  | _, _, d :: ds, ht => coveredBy_conjoinAll ds (Directive.coveredBy_conjoin d ht)

end

/-- In every alternative the chains of the conditions are declared by the whole list. -/
theorem coveredBy_of_mem_alternatives {r : RelationTree} {t u : PredicateTree}
    {ds : List Directive} (ht : t.CoveredBy r) (hu : u ∈ alternatives t ds) :
    u.CoveredBy (r.declareAll ds) := by
  rw [alternatives_eq_map] at hu
  obtain ⟨run, hrun, rfl⟩ := List.mem_map.1 hu
  exact (coveredBy_conjoinAll run ht).mono (RelationTree.within_of_mem_choices hrun r)

end RowQuery
