import RowQuery.Proofs.Tree.Relation

/-!
# Relation trees are determined by their chains

Under a relation stands a bare mark or a tree that is not empty, and every merge keeps it so. A
filled tree is known by the chains it declares (`RelationTree.eq_of_containsPath`).
-/

namespace RowQuery

/-! ### No empty tree under a relation -/

mutual

/-- No relation stands over an empty tree. -/
def RelationNode.Filled : RelationNode → Prop
  | .load => True
  | .nested t => t ≠ [] ∧ RelationTree.Filled t

def RelationTree.Filled : List (String × RelationNode) → Prop
  | [] => True
  | (_, n) :: t => n.Filled ∧ RelationTree.Filled t

end

theorem RelationNode.Filled.above {t : RelationTree} (ht : RelationTree.Filled t) :
    (RelationNode.above t).Filled := by
  cases t with
  | nil => trivial
  | cons e t => exact ⟨List.cons_ne_nil _ _, ht⟩

namespace RelationTree

theorem filled_nil : Filled [] := trivial

theorem filled_iff {t : RelationTree} : Filled t ↔ ∀ e ∈ t, e.2.Filled := by
  induction t with
  | nil => simp [Filled]
  | cons e t ih => simp only [Filled, ih, List.forall_mem_cons]

theorem Filled.insert {t : RelationTree} (ht : Filled t) {n : RelationNode} (hn : n.Filled)
    (k : String) : Filled (Keyed.insert k n t) := by
  refine filled_iff.2 fun e he => ?_
  rcases Keyed.mem_insert he with rfl | he
  · exact hn
  · exact filled_iff.1 ht e he

theorem Filled.of_find? {t : RelationTree} (ht : Filled t) {k : String} {n : RelationNode}
    (h : Keyed.find? k t = some n) : n.Filled :=
  filled_iff.1 ht _ (Keyed.mem_of_find? h)

theorem mergeInto_ne_nil {s t : RelationTree} (ht : t ≠ []) : mergeInto s t ≠ [] := by
  have hmerge := merge_eq_mergeWith t s
  rw [merge] at hmerge
  rw [hmerge]
  exact Keyed.mergeWith_ne_nil _ ht

end RelationTree

mutual

theorem RelationNode.Filled.declareOver : (new : RelationNode) → {old : Option RelationNode} →
    new.Filled → (∀ o, old = some o → o.Filled) → (new.declareOver old).Filled
  | .load, none, hn, _ => hn
  | .load, some .load, hn, _ => hn
  | .load, some (.nested _), _, ho => ho _ rfl
  | .nested _, none, hn, _ => hn
  | .nested _, some .load, hn, _ => hn
  | .nested source, some (.nested _), hn, ho =>
    ⟨RelationTree.mergeInto_ne_nil (ho _ rfl).1,
      RelationTree.Filled.mergeInto source hn.2 (ho _ rfl).2⟩

theorem RelationTree.Filled.mergeInto : (source : List (String × RelationNode)) →
    {target : RelationTree} → RelationTree.Filled source → RelationTree.Filled target →
    RelationTree.Filled (RelationTree.mergeInto source target)
  | [], _, _, ht => ht
  | (k, n) :: source, _, hs, ht =>
    RelationTree.Filled.mergeInto source hs.2
      (ht.insert (RelationNode.Filled.declareOver n hs.1 fun _ ho => ht.of_find? ho) k)

end

namespace RelationTree

theorem Filled.merge {t s : RelationTree} (ht : Filled t) (hs : Filled s) : Filled (t.merge s) :=
  Filled.mergeInto s hs ht

theorem filled_atPath {n : RelationNode} (hn : n.Filled) (ks : List String) :
    Filled (atPath ks n) := by
  induction ks with
  | nil => trivial
  | cons k ks ih =>
    cases ks with
    | nil => exact ⟨hn, trivial⟩
    | cons k' ks => exact ⟨⟨by cases ks <;> exact List.cons_ne_nil _ _, ih⟩, trivial⟩

theorem filled_atPath_load (ks : List String) : Filled (atPath ks .load) :=
  filled_atPath (n := .load) trivial ks

/-! ### Equality from chains -/

variable {t u : RelationTree} {k : String} {n m : RelationNode}

theorem containsPath_singleton (k : String) (t : RelationTree) :
    containsPath [k] t = (Keyed.find? k t).isSome := by
  rw [containsPath_cons]
  cases Keyed.find? k t with
  | none => rfl
  | some n => cases n <;> rfl

theorem containsPath_cons_self (ks : List String) :
    containsPath (k :: ks) ((k, n) :: t) = n.contains ks := by
  rw [containsPath_cons, Keyed.find?_cons, if_pos rfl, Option.any_some]

theorem containsPath_cons_of_ne {l : String} (h : l ≠ k) (ks : List String) :
    containsPath (l :: ks) ((k, n) :: t) = containsPath (l :: ks) t := by
  rw [containsPath_cons, containsPath_cons, Keyed.find?_cons, if_neg h]

/-- The rest of a tree has its own chains only. -/
theorem containsPath_tail (ht : Ordered ((k, n) :: t)) (hu : Ordered ((k, m) :: u))
    (h : ∀ ks, containsPath ks ((k, n) :: t) = containsPath ks ((k, m) :: u)) (ks : List String) :
    containsPath ks t = containsPath ks u := by
  cases ks with
  | nil => rfl
  | cons l ks =>
    by_cases hl : l = k
    · rw [hl, containsPath_cons, containsPath_cons, Keyed.find?_eq_none_of_lt ht.1,
        Keyed.find?_eq_none_of_lt hu.1]
    · rw [← containsPath_cons_of_ne (n := n) hl, h, containsPath_cons_of_ne hl]

end RelationTree

mutual

theorem RelationNode.eq_of_contains : (n : RelationNode) → {m : RelationNode} → n.Ordered →
    m.Ordered → n.Filled → m.Filled → (∀ ks, n.contains ks = m.contains ks) → n = m
  | .load, .load, _, _, _, _, _ => rfl
  | .load, .nested ((k, _) :: _), _, _, _, _, h => by
    have hk := h [k]
    rw [RelationNode.contains, RelationNode.contains, RelationTree.containsPath_singleton,
      Keyed.find?_cons, if_pos rfl] at hk
    cases hk
  | .load, .nested [], _, _, _, hm, _ => absurd rfl hm.1
  | .nested ((k, _) :: _), .load, _, _, _, _, h => by
    have hk := h [k]
    rw [RelationNode.contains, RelationNode.contains, RelationTree.containsPath_singleton,
      Keyed.find?_cons, if_pos rfl] at hk
    cases hk
  | .nested [], .load, _, _, hn, _, _ => absurd rfl hn.1
  | .nested t, .nested _, hn, hm, hfn, hfm, h =>
    congrArg RelationNode.nested (RelationTree.eq_of_containsPath t hn hm hfn.2 hfm.2 h)

/-- Two filled trees that declare the same chains are the same. -/
theorem RelationTree.eq_of_containsPath : (t : List (String × RelationNode)) →
    {u : RelationTree} → RelationTree.Ordered t → RelationTree.Ordered u →
    RelationTree.Filled t → RelationTree.Filled u →
    (∀ ks, RelationTree.containsPath ks t = RelationTree.containsPath ks u) → t = u
  | [], [], _, _, _, _, _ => rfl
  | [], (k, _) :: _, _, _, _, _, h => by
    have hk := h [k]
    rw [RelationTree.containsPath_singleton, RelationTree.containsPath_singleton,
      Keyed.find?_cons, if_pos rfl] at hk
    cases hk
  | (k, _) :: _, [], _, _, _, _, h => by
    have hk := h [k]
    rw [RelationTree.containsPath_singleton, RelationTree.containsPath_singleton,
      Keyed.find?_cons, if_pos rfl] at hk
    cases hk
  | (k, n) :: t, (l, m) :: u, ht, hu, hft, hfu, h => by
    have hkl : k = l := by
      refine Keyed.fst_eq_of_isSome_find? (RelationTree.ordered_iff.1 ht).1
        (RelationTree.ordered_iff.1 hu).1 fun k' => ?_
      rw [← RelationTree.containsPath_singleton, ← RelationTree.containsPath_singleton, h]
    subst hkl
    have hnm : ∀ ks, n.contains ks = m.contains ks := by
      intro ks
      rw [← RelationTree.containsPath_cons_self, h, RelationTree.containsPath_cons_self]
    have htu := RelationTree.containsPath_tail ht hu h
    rw [RelationNode.eq_of_contains n ht.2.1 hu.2.1 hft.1 hfu.1 hnm,
      RelationTree.eq_of_containsPath t ht.2.2 hu.2.2 hft.2 hfu.2 htu]

end

end RowQuery
