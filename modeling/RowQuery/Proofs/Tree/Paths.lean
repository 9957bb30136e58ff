import RowQuery.Proofs.Tree.Relation

/-!
# The paths of a relation tree

`paths` lists the declared chains of relations. Each stands in the list once, and behind every chain
that it goes on from (`pairwise_paths`), so that a walk along the list meets the parent of a chain
before the chain itself (`mem_before_of_isPrefix`).
-/

namespace RowQuery

/-! ### Below a path -/

mutual

theorem RelationNode.pathsBelow_eq_map : (n : RelationNode) → (path : List String) →
    n.pathsBelow path = (n.pathsBelow []).map (path ++ ·)
  | .load, _ => rfl
  | .nested t, path => RelationTree.pathsFrom_eq_map t path

theorem RelationTree.pathsFrom_eq_map : (t : List (String × RelationNode)) →
    (path : List String) →
    RelationTree.pathsFrom path t = (RelationTree.pathsFrom [] t).map (path ++ ·)
  | [], _ => rfl
  | (k, n) :: t, path => by
    have hbelow : n.pathsBelow (path ++ [k]) = (n.pathsBelow [k]).map (path ++ ·) := by
      rw [RelationNode.pathsBelow_eq_map n (path ++ [k]), RelationNode.pathsBelow_eq_map n [k],
        List.map_map]
      congr 1
      funext ks
      simp
    rw [RelationTree.pathsFrom, RelationTree.pathsFrom, hbelow,
      RelationTree.pathsFrom_eq_map t path]
    simp

end

namespace RelationNode

/-- The chains declared below a relation, without the chain that leads to it. -/
def paths (n : RelationNode) : List (List String) := n.pathsBelow []

@[simp] theorem paths_load : paths .load = [] := rfl

@[simp] theorem paths_nested (t : RelationTree) : paths (.nested t) = t.paths := rfl

end RelationNode

namespace RelationTree

@[simp] theorem paths_nil : paths [] = [] := rfl

theorem paths_cons (k : String) (n : RelationNode) (t : RelationTree) :
    paths ((k, n) :: t) = [k] :: n.paths.map (k :: ·) ++ paths t := by
  rw [paths, pathsFrom, List.nil_append, n.pathsBelow_eq_map [k]]
  rfl

end RelationTree

/-! ### Members -/

mutual

theorem RelationNode.mem_paths : (n : RelationNode) → n.Ordered → (ks : List String) →
    (ks ∈ n.paths ↔ ks ≠ [] ∧ n.contains ks = true)
  | .load, _, ks => by cases ks <;> simp [RelationNode.contains]
  | .nested t, hn, ks => RelationTree.mem_paths t hn ks

/-- The paths of a tree are the chains that it declares, but for the empty one. -/
theorem RelationTree.mem_paths : (t : List (String × RelationNode)) → RelationTree.Ordered t →
    (ks : List String) →
    (ks ∈ RelationTree.paths t ↔ ks ≠ [] ∧ RelationTree.containsPath ks t = true)
  | [], _, ks => by cases ks <;> simp
  | (k, n) :: t, ⟨hlt, hn, ht⟩, ks => by
    rw [RelationTree.paths_cons, List.mem_append, List.mem_cons, RelationTree.mem_paths t ht]
    cases ks with
    | nil => simp
    | cons l ls =>
      have htail : RelationTree.containsPath (l :: ls) t = true → l ≠ k := by
        rintro hls rfl
        rw [RelationTree.containsPath_cons, Keyed.find?_eq_none_of_lt hlt] at hls
        cases hls
      rw [RelationTree.containsPath_cons, RelationTree.containsPath_cons, Keyed.find?_cons]
      rw [RelationTree.containsPath_cons] at htail
      by_cases hl : l = k
      · subst hl
        have hmem := RelationNode.mem_paths n hn ls
        have hempty : n.contains [] = true := by cases n <;> rfl
        by_cases hls : ls = []
        · simp [hls, hempty]
        · have hno : ¬ (Keyed.find? l t).any (RelationNode.contains ls) = true :=
            fun h => htail h rfl
          simp [hls, hno, hmem]
      · have hk : k ≠ l := fun h => hl h.symm
        simp [hl, hk]

end

namespace RelationTree

variable {t : RelationTree}

theorem ne_nil_of_mem_paths (ht : Ordered t) {ks : List String} (h : ks ∈ t.paths) : ks ≠ [] :=
  ((mem_paths t ht ks).1 h).1

end RelationTree

/-! ### Order -/

mutual

theorem RelationNode.pairwise_paths : (n : RelationNode) → n.Ordered →
    n.paths.Pairwise fun ks ls => ¬ ls <+: ks
  | .load, _ => List.Pairwise.nil
  | .nested t, hn => RelationTree.pairwise_paths t hn

/-- No path stands behind one that goes on from it. -/
theorem RelationTree.pairwise_paths : (t : List (String × RelationNode)) →
    RelationTree.Ordered t → (RelationTree.paths t).Pairwise fun ks ls => ¬ ls <+: ks
  | [], _ => List.Pairwise.nil
  | (k, n) :: t, ⟨hlt, hn, ht⟩ => by
    -- what stands behind the block of `k` begins with a greater key
    have hrest : ∀ ls ∈ RelationTree.paths t, ∀ ks, ¬ ls <+: k :: ks := by
      intro ls hls ks hprefix
      obtain ⟨hne, hls⟩ := (RelationTree.mem_paths t ht ls).1 hls
      cases ls with
      | nil => exact hne rfl
      | cons l ls =>
        obtain ⟨rfl, _⟩ := List.cons_prefix_cons.1 hprefix
        rw [RelationTree.containsPath_cons, Keyed.find?_eq_none_of_lt hlt] at hls
        cases hls
    have hblock : (n.paths.map (k :: ·)).Pairwise fun ks ls => ¬ ls <+: ks := by
      rw [List.pairwise_map]
      refine (RelationNode.pairwise_paths n hn).imp fun h hprefix => h ?_
      exact (List.cons_prefix_cons.1 hprefix).2
    rw [RelationTree.paths_cons, List.pairwise_append, List.pairwise_cons]
    refine ⟨⟨fun ls hls hprefix => ?_, hblock⟩, RelationTree.pairwise_paths t ht, ?_⟩
    · obtain ⟨ms, hms, rfl⟩ := List.mem_map.1 hls
      have hnil : ms = [] := List.prefix_nil.1 (List.cons_prefix_cons.1 hprefix).2
      exact ((RelationNode.mem_paths n hn ms).1 hms).1 hnil
    · intro ks hks ls hls
      rcases List.mem_cons.1 hks with rfl | hks
      · exact hrest ls hls []
      · obtain ⟨ms, _, rfl⟩ := List.mem_map.1 hks
        exact hrest ls hls ms

end

namespace RelationTree

variable {t : RelationTree}

theorem nodup_paths (ht : Ordered t) : t.paths.Nodup := by
  refine (pairwise_paths t ht).imp ?_
  rintro ks _ h rfl
  exact h List.prefix_rfl

/-- Every chain that a path goes on from stands before it, unless it is empty. -/
theorem mem_before_of_isPrefix (ht : Ordered t) {before after : List (List String)}
    {ks ls : List String} (h : t.paths = before ++ ks :: after) (hpre : ls <+: ks)
    (hproper : ls ≠ ks) (hne : ls ≠ []) : ls ∈ before := by
  have hmem : ks ∈ t.paths := by rw [h]; simp
  have hdeclared : containsPath ks t = true := ((mem_paths t ht _).1 hmem).2
  have hls : ls ∈ t.paths :=
    (mem_paths t ht ls).2 ⟨hne, containsPath_of_isPrefix hpre hdeclared⟩
  have hpairwise := pairwise_paths t ht
  rw [h, List.pairwise_append, List.pairwise_cons] at hpairwise
  obtain ⟨_, ⟨hafter, _⟩, _⟩ := hpairwise
  rw [h, List.mem_append, List.mem_cons] at hls
  rcases hls with hbefore | hself | hbehind
  · exact hbefore
  · exact absurd hself hproper
  · exact absurd hpre (hafter ls hbehind)

/-- The chain that a path goes on from by one relation stands before it, unless it is empty. -/
theorem mem_before_of_paths (ht : Ordered t) {before after : List (List String)}
    {ks : List String} {k : String} (h : t.paths = before ++ (ks ++ [k]) :: after) :
    ks = [] ∨ ks ∈ before := by
  by_cases hks : ks = []
  · exact .inl hks
  · have hproper : ks ≠ ks ++ [k] := by simp
    exact .inr (mem_before_of_isPrefix ht h (List.prefix_append ks [k]) hproper hks)

/-! ### Names -/

/-- Every name in a declared chain is a segment. -/
def Segmented (t : RelationTree) : Prop :=
  ∀ ks, containsPath ks t = true → ∀ k ∈ ks, IsSegment k

theorem segmented_nil : Segmented [] := by
  intro ks hks k hk
  rw [containsPath_empty, List.isEmpty_iff] at hks
  rw [hks] at hk
  cases hk

theorem Segmented.merge {u : RelationTree} (ht : t.Segmented) (hu : u.Segmented)
    (hord : Ordered u) : (t.merge u).Segmented := by
  intro ks hks
  rw [containsPath_merge hord, Bool.or_eq_true] at hks
  rcases hks with hks | hks
  · exact ht ks hks
  · exact hu ks hks

theorem segmented_atPath {n : RelationNode}
    (hn : ∀ ls, n.contains ls = true → ∀ k ∈ ls, IsSegment k) {ks : List String}
    (hks : ∀ k ∈ ks, IsSegment k) : Segmented (atPath ks n) := by
  induction ks with
  | nil => exact segmented_nil
  | cons k ks ih =>
    obtain ⟨hk, hks⟩ := List.forall_mem_cons.1 hks
    -- below `k` stands either the rest of the chain or what was put at its end
    have hcons : ∀ m, (∀ ls, RelationNode.contains ls m = true → ∀ l ∈ ls, IsSegment l) →
        Segmented [(k, m)] := by
      intro m hm ls hls l hl
      cases ls with
      | nil => cases hl
      | cons l' ls =>
        rw [containsPath_cons, Keyed.find?_cons] at hls
        by_cases hl' : l' = k
        · rw [if_pos hl'] at hls
          rcases List.mem_cons.1 hl with rfl | hl
          · exact hl' ▸ hk
          · exact hm ls hls l hl
        · rw [if_neg hl'] at hls
          cases hls
    cases ks with
    | nil => exact hcons n hn
    | cons k' ks => exact hcons (.nested (atPath (k' :: ks) n)) (ih hks)

theorem Segmented.isSegment_of_mem_paths (hseg : t.Segmented) (ht : Ordered t) {ks : List String}
    (h : ks ∈ t.paths) : ∀ k ∈ ks, IsSegment k :=
  hseg ks ((mem_paths t ht ks).1 h).2

end RelationTree

end RowQuery
