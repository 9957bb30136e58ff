import RowQuery.Proofs.Sql.Scope

/-!
# The joins of a relation tree

A relation tree is walked in three ways: its paths are listed, a chain is looked up in it, and the
joins of a statement are collected along it. The walks agree (`traversal_laws`): the chains that are
found are those that are listed, and the joins are called by the listed paths, in their order. The
last takes that no relation has the empty name: what stands below an empty name at the root would be
called as if it stood at the root itself.
-/

namespace RowQuery

/-! ### Names -/

mutual

def RelationNode.Named : RelationNode → Prop
  | .load => True
  | .nested t => RelationTree.Named t

/-- No relation has the empty name, at any depth. -/
def RelationTree.Named : List (String × RelationNode) → Prop
  | [] => True
  | (k, n) :: t => k ≠ "" ∧ n.Named ∧ RelationTree.Named t

end

mutual

theorem RelationNode.Named.not_mem_paths : (n : RelationNode) → n.Named → ∀ ks ∈ n.paths, "" ∉ ks
  | .load, _ => nofun
  | .nested t, hn => RelationTree.Named.not_mem_paths t hn

/-- The empty name stands in no path. -/
theorem RelationTree.Named.not_mem_paths : (t : List (String × RelationNode)) →
    RelationTree.Named t → ∀ ks ∈ RelationTree.paths t, "" ∉ ks
  | [], _ => nofun
  | (k, n) :: t, ⟨hk, hn, ht⟩ => by
    intro ks hks
    rw [RelationTree.paths_cons, List.mem_append, List.mem_cons, List.mem_map] at hks
    rcases hks with (rfl | ⟨ls, hls, rfl⟩) | hks
    · simpa using hk.symm
    · have hbelow := RelationNode.Named.not_mem_paths n hn ls hls
      simpa [hk.symm] using hbelow
    · exact RelationTree.Named.not_mem_paths t ht ks hks

end

/-! ### The three walks -/

namespace RelationTree

variable {t : RelationTree}

/-- Where joins can be collected, they are called by the paths of the tree, in their order. -/
theorem Named.paths_of_joinsOf (hnamed : Named t) {σ : Schema} {s : Shape} {js : List Sql.Join}
    (h : Sql.joinsOf σ s "" t = .ok js) :
    js.map Sql.Join.path = t.paths.map FieldPath.joinDots :=
  -- the walk of the joins starts at the shape itself, at the end of the empty chain
  have hfollows : List.Forall₂ (Sql.Join.Follows σ s) t.paths js := Sql.joinsOf_follow t h rfl
  Sql.Join.paths_of_follows hfollows (Named.not_mem_paths t hnamed)

/-- The list of paths, the look-up of a chain and the joins agree on every relation tree. -/
theorem traversal_laws (ht : Ordered t) :
    t.paths.Nodup ∧
      (∀ before ks after, t.paths = before ++ ks :: after →
        ∀ ls, ls <+: ks → ls ≠ ks → ls ≠ [] → ls ∈ before) ∧
      (∀ ks, ks ≠ [] → (ks ∈ t.paths ↔ containsPath ks t = true)) ∧
      [] ∉ t.paths ∧ containsPath [] t = true ∧
      (∀ ks ls, ls <+: ks → containsPath ks t = true → containsPath ls t = true) ∧
      (Named t → ∀ (σ : Schema) (s : Shape) js, Sql.joinsOf σ s "" t = .ok js →
        js.map Sql.Join.path = t.paths.map FieldPath.joinDots) := by
  refine ⟨nodup_paths ht, ?parents, ?members, ?empty, containsPath_nil t, ?prefixes, ?joins⟩
  case parents =>
    intro before ks after h ls hpre hproper hne
    exact mem_before_of_isPrefix ht h hpre hproper hne
  case members =>
    intro ks hne
    rw [mem_paths t ht]
    exact and_iff_right hne
  case empty => exact fun h => ne_nil_of_mem_paths ht h rfl
  case prefixes => exact fun ks ls hpre h => containsPath_of_isPrefix hpre h
  case joins => exact fun hnamed σ s js h => hnamed.paths_of_joinsOf h

/-- The team of the author comes behind the author, in the list and among the joins. -/
theorem traversal_laws_articles :
    let t : RelationTree := [("author", .nested [("team", .load)])]
    Ordered t ∧ Named t ∧ containsPath ["author", "team"] t = true ∧
      ∃ s js, Schema.articles.shape? "Article" = some s ∧
        Sql.joinsOf .articles s "" t = .ok js ∧
        js.map Sql.Join.path = ["author", "author.team"] := by
  intro t
  have ht : Ordered t := ordered_atPath_load ["author", "team"]
  have hnamed : Named t := ⟨by decide, ⟨by decide, trivial, trivial⟩, trivial⟩
  have hrun : (do
      let s ← Schema.articles.shape "Article"
      return (s, ← Sql.joinsOf .articles s "" t) :
      Except QueryError (Shape × List Sql.Join)).toOption.isSome = true := by
    decide +kernel
  obtain ⟨⟨s, js⟩, h⟩ := exists_ok_of_isSome hrun
  obtain ⟨_, hs, h⟩ := bind_eq_ok.1 h
  obtain ⟨_, hjoins, h⟩ := bind_eq_ok.1 h
  cases h
  obtain ⟨_, _, hmembers, _, _, _, hpaths⟩ := traversal_laws ht
  refine ⟨ht, hnamed, ?_, s, js, Schema.shape_eq_ok.1 hs, hjoins, ?_⟩
  · exact (hmembers ["author", "team"] (by decide)).1 (by decide)
  · rw [hpaths hnamed .articles s js hjoins]
    decide

end RelationTree

end RowQuery
