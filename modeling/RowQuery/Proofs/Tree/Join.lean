import RowQuery.Proofs.Tree.Relation

/-!
# Merging relation trees is a join

The merge of two relation trees does not depend on which of them comes first or on how three are
grouped, and a tree merged with itself stays as it is. It declares the chains of both sides, so it
is their union (`merge_semilattice`). A bare mark is absorbed by whatever is declared below it.
-/

namespace RowQuery

/-! ### Induction over what stands below a relation -/

mutual

theorem RelationNode.induction {P : RelationNode → Prop} (load : P .load)
    (nested : ∀ t, (∀ e ∈ t, P e.2) → P (.nested t)) : ∀ n, P n
  | .load => load
  | .nested t => nested t (RelationTree.forall_mem_of_induction load nested t)

theorem RelationTree.forall_mem_of_induction {P : RelationNode → Prop} (load : P .load)
    (nested : ∀ t, (∀ e ∈ t, P e.2) → P (.nested t)) :
    ∀ t : List (String × RelationNode), ∀ e ∈ t, P e.2
  | [] => nofun
  | (_, n) :: t => List.forall_mem_cons.2
    ⟨RelationNode.induction load nested n, RelationTree.forall_mem_of_induction load nested t⟩

end

/-! ### One place of a merge -/

namespace RelationNode

@[simp] theorem declareOver_none (n : RelationNode) : n.declareOver none = n := by
  cases n <;> rfl

@[simp] theorem load_declareOver (n : RelationNode) : load.declareOver (some n) = n := by
  cases n <;> rfl

@[simp] theorem declareOver_load (n : RelationNode) : n.declareOver (some load) = n := by
  cases n <;> rfl

@[simp] theorem nested_declareOver_nested (t u : RelationTree) :
    (nested u).declareOver (some (nested t)) = nested (t.merge u) := rfl

/-- What a merge leaves at a place, given what its two sides have there. -/
def join (old new : Option RelationNode) : Option RelationNode :=
  match new with
  | none => old
  | some n => some (n.declareOver old)

@[simp] theorem join_none (old : Option RelationNode) : join old none = old := rfl

@[simp] theorem none_join (new : Option RelationNode) : join none new = new := by
  cases new with
  | none => rfl
  | some n => exact congrArg some n.declareOver_none

@[simp] theorem join_some (n m : RelationNode) :
    join (some n) (some m) = some (m.declareOver (some n)) := rfl

end RelationNode

namespace RelationTree

variable {t u v : RelationTree}

theorem find?_merge_eq_join (hu : Keyed.Sorted u) (k : String) :
    Keyed.find? k (t.merge u) = RelationNode.join (Keyed.find? k t) (Keyed.find? k u) := by
  rw [find?_merge hu]
  cases Keyed.find? k u <;> rfl

theorem Ordered.sorted (ht : Ordered t) : Keyed.Sorted t := (ordered_iff.1 ht).1

/-- Trees with the same relations, and the same below each of them, are the same. -/
theorem Ordered.ext (ht : Ordered t) (hu : Ordered u)
    (h : ∀ k, Keyed.find? k t = Keyed.find? k u) : t = u :=
  ht.sorted.ext hu.sorted h

end RelationTree

/-! ### The order of two sides, and the grouping of three -/

namespace RelationNode

/-- It does not matter which of two declarations of a relation comes first. -/
theorem declareOver_comm (n : RelationNode) :
    ∀ m : RelationNode, n.Ordered → m.Ordered →
      m.declareOver (some n) = n.declareOver (some m) := by
  induction n using RelationNode.induction with
  | load => intro m _ _; simp
  | nested t ih =>
    intro m hn hm
    cases m with
    | load => simp
    | nested u =>
      have ht : RelationTree.Ordered t := hn
      have hu : RelationTree.Ordered u := hm
      show nested (RelationTree.merge t u) = nested (RelationTree.merge u t)
      congr 1
      refine (ht.merge hu).ext (hu.merge ht) fun k => ?_
      rw [RelationTree.find?_merge_eq_join hu.sorted, RelationTree.find?_merge_eq_join ht.sorted]
      cases hx : Keyed.find? k t with
      | none => simp
      | some x =>
        cases hy : Keyed.find? k u with
        | none => simp
        | some y =>
          have hxy := ih _ (Keyed.mem_of_find? hx) y (ht.of_find? hx) (hu.of_find? hy)
          exact congrArg some hxy

/-- It does not matter which two of three declarations of a relation are merged first. -/
theorem declareOver_assoc (n : RelationNode) :
    ∀ m l : RelationNode, n.Ordered → m.Ordered → l.Ordered →
      l.declareOver (some (m.declareOver (some n))) =
        (l.declareOver (some m)).declareOver (some n) := by
  induction n using RelationNode.induction with
  | load => intro m l _ _ _; simp
  | nested t ih =>
    intro m l hn hm hl
    cases m with
    | load => simp
    | nested u =>
      cases l with
      | load => simp
      | nested v =>
        have ht : RelationTree.Ordered t := hn
        have hu : RelationTree.Ordered u := hm
        have hv : RelationTree.Ordered v := hl
        show nested (RelationTree.merge (RelationTree.merge t u) v) =
          nested (RelationTree.merge t (RelationTree.merge u v))
        congr 1
        refine ((ht.merge hu).merge hv).ext (ht.merge (hu.merge hv)) fun k => ?_
        rw [RelationTree.find?_merge_eq_join hv.sorted, RelationTree.find?_merge_eq_join hu.sorted,
          RelationTree.find?_merge_eq_join (hu.merge hv).sorted,
          RelationTree.find?_merge_eq_join hv.sorted]
        -- a side that has nothing at the place drops out
        cases hx : Keyed.find? k t with
        | none => simp
        | some x =>
          cases hy : Keyed.find? k u with
          | none => simp
          | some y =>
            cases hz : Keyed.find? k v with
            | none => simp
            | some z =>
              have hxyz := ih _ (Keyed.mem_of_find? hx) y z (ht.of_find? hx) (hu.of_find? hy)
                (hv.of_find? hz)
              exact congrArg some hxyz

theorem declareOver_self (n : RelationNode) : n.Ordered → n.declareOver (some n) = n := by
  induction n using RelationNode.induction with
  | load => intro _; rfl
  | nested t ih =>
    intro hn
    have ht : RelationTree.Ordered t := hn
    show nested (RelationTree.merge t t) = nested t
    congr 1
    refine (ht.merge ht).ext ht fun k => ?_
    rw [RelationTree.find?_merge_eq_join ht.sorted]
    cases hx : Keyed.find? k t with
    | none => rfl
    | some x => exact congrArg some (ih _ (Keyed.mem_of_find? hx) (ht.of_find? hx))

end RelationNode

namespace RelationTree

section Laws

variable {t u v : RelationTree} (ht : Ordered t) (hu : Ordered u) (hv : Ordered v)

include ht

theorem merge_self : t.merge t = t :=
  RelationNode.nested.inj (RelationNode.declareOver_self (.nested t) ht)

include hu

theorem merge_comm : t.merge u = u.merge t :=
  RelationNode.nested.inj (RelationNode.declareOver_comm (.nested t) (.nested u) ht hu)

include hv

theorem merge_assoc : (t.merge u).merge v = t.merge (u.merge v) :=
  RelationNode.nested.inj
    (RelationNode.declareOver_assoc (.nested t) (.nested u) (.nested v) ht hu hv)

end Laws

/-! ### Bare marks -/

/-- What the tree of a chain that ends in a bare mark has at its first relation. -/
def endOf : List String → RelationNode
  | [] => .load
  | ks => .nested (atPath ks .load)

theorem atPath_load_cons (k : String) (ks : List String) :
    atPath (k :: ks) .load = [(k, endOf ks)] := by
  cases ks <;> rfl

/-- A bare mark at the end of a chain that is declared already changes nothing. -/
theorem merge_atPath_load {t : RelationTree} (ht : Ordered t) {ks : List String}
    (h : containsPath ks t = true) : t.merge (atPath ks .load) = t := by
  induction ks generalizing t with
  | nil => exact merge_nil t
  | cons k ks ih =>
    rw [containsPath_cons] at h
    cases hn : Keyed.find? k t with
    | none =>
      rw [hn] at h
      cases h
    | some n =>
      rw [hn] at h
      have hmark : (endOf ks).declareOver (some n) = n := by
        cases ks with
        | nil => exact RelationNode.load_declareOver n
        | cons k' ks =>
          cases n with
          | load => cases h
          | nested u =>
            have hu : Ordered u := ht.of_find? hn
            exact congrArg RelationNode.nested (ih hu h)
      have hplace : t.merge (atPath (k :: ks) .load) = Keyed.insert k n t := by
        rw [atPath_load_cons, merge_cons, hn, hmark, merge_nil]
      rw [hplace]
      refine (ht.insert (ht.of_find? hn) k).ext ht fun l => ?_
      by_cases hl : l = k
      · rw [hl, Keyed.find?_insert_self, hn]
      · rw [Keyed.find?_insert_of_ne _ hl]

/-- A merge of ordered trees is a join on their sets of chains: associative, commutative and
idempotent, with the chains of both sides. A bare mark for a chain that is declared changes nothing,
whether it comes before or after. -/
theorem merge_semilattice {a b c : RelationTree} (ha : Ordered a) (hb : Ordered b)
    (hc : Ordered c) :
    (a.merge b).merge c = a.merge (b.merge c) ∧ a.merge b = b.merge a ∧ a.merge a = a ∧
      (∀ ks, containsPath ks (a.merge b) = true ↔
        containsPath ks a = true ∨ containsPath ks b = true) ∧
      ∀ ks, containsPath ks a = true →
        a.merge (atPath ks .load) = a ∧ (atPath ks .load).merge a = a := by
  refine ⟨merge_assoc ha hb hc, merge_comm ha hb, merge_self ha, fun ks => ?_, fun ks hks => ?_⟩
  · rw [containsPath_merge hb, Bool.or_eq_true]
  · have hmark := merge_atPath_load ha hks
    exact ⟨hmark, (merge_comm (ordered_atPath_load ks) ha).trans hmark⟩

/-- A bare mark meets a relation with declarations below it, and an empty tree below a relation
meets a bare mark and a relation that the others lack. -/
theorem merge_semilattice_articles :
    let a : RelationTree := [("author", .nested [("articles", .load)]), ("tags", .nested [])]
    let b : RelationTree := [("author", .load), ("tags", .load)]
    let c : RelationTree := [("author", .nested [("company", .nested [("users", .load)])])]
    (a.merge b).merge c = a.merge (b.merge c) ∧ a.merge b = b.merge a ∧ a.merge a = a ∧
      containsPath ["author", "articles"] (a.merge b) = true ∧
      (atPath ["author", "articles"] .load).merge a = a := by
  intro a b c
  have hlt : "author" < "tags" := by decide +kernel
  have ha : Ordered a := by
    simp only [a, Ordered, RelationNode.Ordered, List.forall_mem_singleton, hlt]
    simp
  have hb : Ordered b := by
    simp only [b, Ordered, RelationNode.Ordered, List.forall_mem_singleton, hlt]
    simp
  have hc : Ordered c := by simp [c, Ordered, RelationNode.Ordered]
  have hchain : containsPath ["author", "articles"] a = true := by decide
  obtain ⟨hassoc, hcomm, hself, hunion, hmark⟩ := merge_semilattice ha hb hc
  exact ⟨hassoc, hcomm, hself, (hunion _).2 (.inl hchain), (hmark _ hchain).2⟩

end RelationTree

end RowQuery
