import RowQuery.Proofs.Directive.Declared
import RowQuery.Proofs.Tree.Filled

/-!
# The chains that directives name

Directives name chains of relations one by one, and what a list declares is a tree. The tree has the
prefixes of the chains that are named and no other chain (`spans_declareAll`), though a mark may
meet a deeper declaration in either order, and joins and branches start with nothing declared.
-/

namespace RowQuery

/-! ### Trees from chains -/

namespace RelationTree

/-- The tree declares the prefixes of the given chains, and nothing else. -/
def Spans (t : RelationTree) (chains : List (List String)) : Prop :=
  ∀ ks, ks ≠ [] → (t.containsPath ks = true ↔ ∃ ls ∈ chains, ks <+: ls)

variable {t u : RelationTree} {cs ds : List (List String)}

theorem Spans.containsPath_eq (ht : t.Spans cs) (hu : u.Spans cs) (ks : List String) :
    t.containsPath ks = u.containsPath ks := by
  by_cases hne : ks = []
  · rw [hne, containsPath_nil, containsPath_nil]
  · rw [Bool.eq_iff_iff, ht ks hne, hu ks hne]

theorem spans_nil : Spans [] [] := by
  intro ks hne
  simp [hne]

theorem Spans.merge (ht : t.Spans cs) (hu : u.Spans ds) (hord : Ordered u) :
    (t.merge u).Spans (cs ++ ds) := by
  intro ks hne
  simp only [containsPath_merge hord, Bool.or_eq_true, ht ks hne, hu ks hne, List.mem_append,
    or_and_right, exists_or]

/-- A chain goes along the path, and may go on with what stands at its end. -/
theorem containsPath_atPath_iff {ls : List String} (hne : ls ≠ []) (n : RelationNode)
    (ks : List String) :
    containsPath ks (atPath ls n) = true ↔
      ks <+: ls ∨ ∃ ms, ks = ls ++ ms ∧ n.contains ms = true := by
  induction ls generalizing ks with
  | nil => exact absurd rfl hne
  | cons l ls ih =>
    cases ks with
    | nil => simp
    | cons k ks =>
      by_cases hk : k = l
      · subst hk
        cases ls with
        | nil =>
          rw [atPath, containsPath_cons_self]
          have hempty : n.contains [] = true := by cases n <;> rfl
          cases ks with
          | nil => simp [hempty]
          | cons k' ks => simp
        | cons l' ls =>
          have hbelow : containsPath (k :: ks) (atPath (k :: l' :: ls) n) =
              containsPath ks (atPath (l' :: ls) n) :=
            containsPath_cons_self ks
          rw [hbelow, ih (List.cons_ne_nil _ _), List.cons_prefix_cons]
          simp
      · have hnone : containsPath (k :: ks) (atPath (l :: ls) n) = false := by
          cases ls <;> simp [atPath, containsPath_cons, Keyed.find?_cons, hk]
        simp [hnone, hk]

/-- The tree of one path declares the prefixes of the path. -/
theorem containsPath_atPath_load_iff (ls ks : List String) :
    containsPath ks (atPath ls .load) = true ↔ ks <+: ls := by
  by_cases hls : ls = []
  · simp [hls, atPath]
  · rw [containsPath_atPath_iff hls]
    simp only [RelationNode.contains, List.isEmpty_iff, exists_eq_right, List.append_nil]
    exact ⟨fun h => h.elim id fun h => h ▸ List.prefix_rfl, .inl⟩

theorem spans_atPath_load (ks : List String) : (atPath ks .load).Spans [ks] := by
  intro ls _
  rw [containsPath_atPath_load_iff]
  simp

/-- Over what is declared below it a path declares itself, and every chain that goes on from it. -/
theorem Spans.above (ht : t.Spans cs) {ks : List String} (hne : ks ≠ []) :
    (atPath ks (.above t)).Spans (ks :: cs.map (ks ++ ·)) := by
  intro ls _
  rw [containsPath_atPath_iff hne]
  constructor
  · rintro (hpre | ⟨ms, rfl, hms⟩)
    · exact ⟨ks, .head _, hpre⟩
    · by_cases hnil : ms = []
      · exact ⟨ks, .head _, by simp [hnil]⟩
      · rw [contains_above, ht ms hnil] at hms
        obtain ⟨c, hc, hpre⟩ := hms
        exact ⟨ks ++ c, .tail _ (List.mem_map_of_mem hc), (List.prefix_append_right_inj ks).2 hpre⟩
  · rintro ⟨ls', hls', hpre⟩
    rcases List.mem_cons.1 hls' with rfl | hls'
    · exact .inl hpre
    · obtain ⟨c, hc, rfl⟩ := List.mem_map.1 hls'
      -- the chain ends on the path itself, or goes on below it
      rcases List.prefix_or_prefix_of_prefix hpre (List.prefix_append ks c) with hshort | ⟨ms, rfl⟩
      · exact .inl hshort
      · by_cases hnil : ms = []
        · exact .inl (by simp [hnil])
        · refine .inr ⟨ms, rfl, ?_⟩
          rw [contains_above, ht ms hnil]
          exact ⟨c, hc, (List.prefix_append_right_inj ks).1 hpre⟩

end RelationTree

/-! ### Chains of directives -/

mutual

/-- The chains of relations that a directive names: those that its paths go through, that of a join,
and under it those that its sub-query names. A filter that says nothing names none. -/
def Directive.chains : Directive → List (List String)
  | .filter path f => (f.added?.map fun _ => (dotPieces path).dropLast).toList
  | .oneOf path _ => [(dotPieces path).dropLast]
  | .join relation ds => dotPieces relation :: (chainsAll ds).map (dotPieces relation ++ ·)
  | .or branches => chainsOf branches
  | .shape (.fetchRelation hops) => [hops.flatMap dotPieces]
  | .shape _ => []

def chainsAll : List Directive → List (List String)
  | [] => []
  | d :: ds => d.chains ++ chainsAll ds

def chainsOf : List (List Directive) → List (List String)
  | [] => []
  | ds :: branches => chainsAll ds ++ chainsOf branches

end

theorem Shaping.spans_declared (step : Shaping) :
    step.declared.Spans (Directive.shape step).chains := by
  cases step with
  | fetchRelation hops => exact RelationTree.spans_atPath_load _
  | _ => exact RelationTree.spans_nil

mutual

theorem Directive.spans_declare : {r : RelationTree} → {cs : List (List String)} →
    (d : Directive) → r.Spans cs → (d.declare r).Spans (cs ++ d.chains)
  | r, cs, .filter path f, hr => by
    rw [Directive.declare, Directive.chains]
    cases hc : f.added? with
    | none => simpa using hr
    | some c =>
      exact hr.merge (RelationTree.spans_atPath_load _) (RelationTree.ordered_atPath_load _)
  | _, _, .oneOf _ _, hr =>
    hr.merge (RelationTree.spans_atPath_load _) (RelationTree.ordered_atPath_load _)
  | _, _, .join relation ds, hr =>
    have hbelow := spans_declareAll ds RelationTree.spans_nil
    have hord := RelationNode.Ordered.above (ordered_declareAll ds RelationTree.ordered_nil)
    hr.merge (hbelow.above (dotPieces_ne_nil relation)) (RelationTree.ordered_atPath hord _)
  | _, _, .or branches, hr => spans_declareBranches branches hr
  | _, _, .shape step, hr => hr.merge step.spans_declared step.ordered_declared

/-- A list adds the chains that it names to those that were there. -/
theorem spans_declareAll : {r : RelationTree} → {cs : List (List String)} →
    (ds : List Directive) → r.Spans cs → (r.declareAll ds).Spans (cs ++ chainsAll ds)
  | _, cs, [], hr => by rwa [chainsAll, List.append_nil]
  | _, cs, d :: ds, hr => by
    rw [chainsAll, ← List.append_assoc]
    exact spans_declareAll ds (Directive.spans_declare d hr)

theorem spans_declareBranches : {r : RelationTree} → {cs : List (List String)} →
    (branches : List (List Directive)) → r.Spans cs →
    (r.declareBranches branches).Spans (cs ++ chainsOf branches)
  | _, cs, [], hr => by rwa [chainsOf, List.append_nil]
  | _, cs, ds :: branches, hr => by
    have hds := spans_declareAll ds RelationTree.spans_nil
    have hord := ordered_declareAll ds RelationTree.ordered_nil
    rw [chainsOf, ← List.append_assoc]
    exact spans_declareBranches branches (hr.merge hds hord)

end

/-- Lists that name the same chains add the same to what is declared. -/
theorem containsPath_declareAll_congr {ds ds' : List Directive} (h : chainsAll ds = chainsAll ds')
    (r : RelationTree) (ks : List String) :
    (r.declareAll ds).containsPath ks = (r.declareAll ds').containsPath ks := by
  have hds := spans_declareAll ds RelationTree.spans_nil
  have hds' := spans_declareAll ds' RelationTree.spans_nil
  rw [← h] at hds'
  rw [containsPath_declareAll, containsPath_declareAll ks r ds', hds.containsPath_eq hds']

/-! ### Order of calls -/

/-- The list declares the chain: it is not empty, and some chain that is named goes on from it. -/
def Declares (ds : List Directive) (ks : List String) : Prop :=
  ks ≠ [] ∧ ∃ ls ∈ chainsAll ds, ks <+: ls

theorem chainsAll_eq_flatMap (ds : List Directive) :
    chainsAll ds = ds.flatMap Directive.chains := by
  induction ds with
  | nil => rfl
  | cons d ds ih => rw [chainsAll, ih, List.flatMap_cons]

theorem declares_of_perm {ds ds' : List Directive} (h : ds.Perm ds') (ks : List String) :
    Declares ds ks ↔ Declares ds' ks := by
  have hchains : (chainsAll ds).Perm (chainsAll ds') := by
    rw [chainsAll_eq_flatMap, chainsAll_eq_flatMap]
    exact h.flatMap_right _
  simp only [Declares, hchains.mem_iff]

end RowQuery
