import RowQuery.Path
import RowQuery.Proofs.Keyed

/-!
# Relation trees as sets of paths

A chain of relations is declared by a merge exactly when one of the two trees declares it, and a
tree that declares a chain declares every prefix of it.
-/

namespace RowQuery

/-! ### Order of keys -/

mutual

/-- The keys increase at every depth. -/
def RelationNode.Ordered : RelationNode → Prop
  | .load => True
  | .nested t => RelationTree.Ordered t

def RelationTree.Ordered : List (String × RelationNode) → Prop
  | [] => True
  | (k, n) :: t => (∀ e ∈ t, k < e.1) ∧ n.Ordered ∧ RelationTree.Ordered t

end

namespace RelationTree

theorem ordered_iff {t : RelationTree} :
    Ordered t ↔ Keyed.Sorted t ∧ ∀ e ∈ t, e.2.Ordered := by
  induction t with
  | nil => simp [Ordered, Keyed.Sorted.nil]
  | cons e t ih =>
    obtain ⟨k, n⟩ := e
    simp only [Ordered, ih, Keyed.sorted_cons, List.forall_mem_cons]
    constructor
    · rintro ⟨hlt, hn, hs, ht⟩
      exact ⟨⟨hlt, hs⟩, hn, ht⟩
    · rintro ⟨⟨hlt, hs⟩, hn, ht⟩
      exact ⟨hlt, hn, hs, ht⟩

theorem Ordered.insert {t : RelationTree} (ht : Ordered t) {n : RelationNode} (hn : n.Ordered)
    (k : String) : Ordered (Keyed.insert k n t) := by
  obtain ⟨hs, hall⟩ := ordered_iff.1 ht
  refine ordered_iff.2 ⟨hs.insert k n, fun e he => ?_⟩
  rcases Keyed.mem_insert he with rfl | he
  · exact hn
  · exact hall e he

theorem Ordered.of_find? {t : RelationTree} (ht : Ordered t) {k : String} {n : RelationNode}
    (h : Keyed.find? k t = some n) : n.Ordered :=
  (ordered_iff.1 ht).2 _ (Keyed.mem_of_find? h)

end RelationTree

mutual

theorem RelationNode.Ordered.declareOver : (new : RelationNode) → {old : Option RelationNode} →
    new.Ordered → (∀ o, old = some o → o.Ordered) → (new.declareOver old).Ordered
  | .load, none, hn, _ => hn
  | .load, some .load, hn, _ => hn
  | .load, some (.nested _), _, ho => ho _ rfl
  | .nested _, none, hn, _ => hn
  | .nested _, some .load, hn, _ => hn
  | .nested source, some (.nested _), hn, ho =>
    RelationTree.Ordered.mergeInto source hn (ho _ rfl)

theorem RelationTree.Ordered.mergeInto : (source : List (String × RelationNode)) →
    {target : RelationTree} → RelationTree.Ordered source → RelationTree.Ordered target →
    RelationTree.Ordered (RelationTree.mergeInto source target)
  | [], _, _, ht => ht
  | (k, n) :: source, _, hs, ht =>
    RelationTree.Ordered.mergeInto source hs.2.2
      (ht.insert (RelationNode.Ordered.declareOver n hs.2.1 fun _ ho => ht.of_find? ho) k)

end

namespace RelationTree

theorem Ordered.merge {t s : RelationTree} (ht : Ordered t) (hs : Ordered s) :
    Ordered (t.merge s) :=
  Ordered.mergeInto s hs ht

theorem ordered_atPath {n : RelationNode} (hn : n.Ordered) (ks : List String) :
    Ordered (atPath ks n) := by
  induction ks with
  | nil => trivial
  | cons k ks ih =>
    cases ks with
    | nil => exact ⟨nofun, hn, trivial⟩
    | cons k' ks => exact ⟨nofun, ih, trivial⟩

theorem ordered_nil : Ordered [] := trivial

theorem ordered_atPath_load (ks : List String) : Ordered (atPath ks .load) :=
  ordered_atPath (n := .load) trivial ks

/-! ### Merging, key by key -/

theorem merge_eq_mergeWith (t s : RelationTree) :
    t.merge s = Keyed.mergeWith RelationNode.declareOver s t := by
  induction s generalizing t with
  | nil => exact merge_nil t
  | cons e s ih => rw [merge_cons, ih, Keyed.mergeWith]

theorem find?_merge {t s : RelationTree} (hs : Keyed.Sorted s) (k : String) :
    Keyed.find? k (t.merge s) =
      match Keyed.find? k s with
      | some n => some (n.declareOver (Keyed.find? k t))
      | none => Keyed.find? k t := by
  rw [merge_eq_mergeWith, Keyed.find?_mergeWith _ hs]
  cases Keyed.find? k s <;> rfl

end RelationTree

/-! ### Declared chains -/

/-- Whether a chain goes on from a relation as declared. -/
def RelationNode.contains (ks : List String) : RelationNode → Bool
  | .load => ks.isEmpty
  | .nested t => RelationTree.containsPath ks t

/-- The relation with what is declared below it, which is a bare mark if nothing is. -/
def RelationNode.above (t : RelationTree) : RelationNode := if t.isEmpty then .load else .nested t

theorem RelationNode.Ordered.above {t : RelationTree} (ht : RelationTree.Ordered t) :
    (RelationNode.above t).Ordered := by
  cases t with
  | nil => trivial
  | cons e t => exact ht

namespace RelationTree

@[simp] theorem containsPath_nil (t : RelationTree) : containsPath [] t = true := rfl

theorem containsPath_cons (k : String) (ks : List String) (t : RelationTree) :
    containsPath (k :: ks) t = (Keyed.find? k t).any (RelationNode.contains ks) := by
  rw [containsPath]
  cases Keyed.find? k t with
  | none => rfl
  | some n => cases n <;> rfl

@[simp] theorem containsPath_empty (ks : List String) : containsPath ks [] = ks.isEmpty := by
  cases ks <;> rfl

/-- A merge declares what either side declares. -/
theorem containsPath_merge {t s : RelationTree} (hs : Ordered s) (ks : List String) :
    containsPath ks (t.merge s) = (containsPath ks t || containsPath ks s) := by
  induction ks generalizing t s with
  | nil => simp
  | cons k ks ih =>
    rw [containsPath_cons, containsPath_cons, containsPath_cons,
      find?_merge (ordered_iff.1 hs).1]
    cases hn : Keyed.find? k s with
    | none => simp
    | some n =>
      cases ho : Keyed.find? k t with
      | none => cases n <;> simp [RelationNode.declareOver]
      | some o =>
        -- a bare mark is the empty tree below a relation, on either side
        cases n with
        | load =>
          cases o with
          | load => simp [RelationNode.declareOver]
          | nested target => cases ks <;> simp [RelationNode.declareOver, RelationNode.contains]
        | nested source =>
          cases o with
          | load => cases ks <;> simp [RelationNode.declareOver, RelationNode.contains]
          | nested target =>
            have hsource : Ordered source := hs.of_find? hn
            simpa only [Option.any_some, RelationNode.declareOver, RelationNode.contains, merge]
              using ih hsource

theorem containsPath_of_append {ks ls : List String} {t : RelationTree}
    (h : containsPath (ks ++ ls) t = true) : containsPath ks t = true := by
  induction ks generalizing t with
  | nil => rfl
  | cons k ks ih =>
    rw [List.cons_append, containsPath_cons] at h
    rw [containsPath_cons]
    cases hn : Keyed.find? k t with
    | none => rw [hn] at h; cases h
    | some n =>
      rw [hn] at h
      cases n with
      | load =>
        have hnil : ks ++ ls = [] := List.isEmpty_iff.1 h
        rw [(List.append_eq_nil_iff.1 hnil).1]
        rfl
      | nested u => exact ih h

/-- A tree that declares a chain declares every prefix of it. -/
theorem containsPath_of_isPrefix {ks ls : List String} {t : RelationTree} (hpre : ls <+: ks)
    (h : containsPath ks t = true) : containsPath ls t = true := by
  obtain ⟨ms, rfl⟩ := hpre
  exact containsPath_of_append h

theorem containsPath_dropLast {ks : List String} {t : RelationTree}
    (h : containsPath ks t = true) : containsPath ks.dropLast t = true :=
  containsPath_of_isPrefix (List.dropLast_prefix ks) h

/-- Below the last relation of a declared chain stands what was declared there. -/
theorem containsPath_atPath {ks : List String} (hne : ks ≠ []) (n : RelationNode)
    (ls : List String) : containsPath (ks ++ ls) (atPath ks n) = n.contains ls := by
  induction ks with
  | nil => exact absurd rfl hne
  | cons k ks ih =>
    cases ks with
    | nil => simp [atPath, containsPath_cons, Keyed.find?_cons]
    | cons k' ks =>
      rw [List.cons_append, containsPath_cons, atPath, Keyed.find?_cons, if_pos rfl]
      · exact ih (by simp)
      · exact List.cons_ne_nil _ _

theorem contains_above (ks : List String) (t : RelationTree) :
    (RelationNode.above t).contains ks = containsPath ks t := by
  cases t with
  | nil => cases ks <;> rfl
  | cons e t => rfl

theorem containsPath_atPath_load (ks : List String) : containsPath ks (atPath ks .load) = true := by
  by_cases hne : ks = []
  · rw [hne]; rfl
  · simpa [RelationNode.contains] using containsPath_atPath hne .load []

end RelationTree

end RowQuery
