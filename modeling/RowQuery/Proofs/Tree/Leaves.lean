import RowQuery.Proofs.Tree.Predicate

/-!
# Trees are determined by their leaves

No nested tree of a tree that fits a shape is empty, so every key leads to a leaf in the end. Two
trees that fit one shape and have the same leaves are therefore the same tree (`Fits.eq_of_leaf?`).
-/

namespace RowQuery

variable {σ : Schema}

namespace PredicateTree

variable {t : PredicateTree} {k l : String} {c : Condition}

theorem leaf?_cons_self (ks : List String) : leaf? (k :: ks) ((k, c) :: t) = c.leaf? ks := by
  rw [leaf?_cons, Keyed.find?_cons, if_pos rfl, Option.bind_some]

theorem leaf?_cons_of_ne (h : l ≠ k) (ks : List String) :
    leaf? (l :: ks) ((k, c) :: t) = leaf? (l :: ks) t := by
  rw [leaf?_cons, leaf?_cons, Keyed.find?_cons, if_neg h]

theorem leaf?_eq_none_of_lt (h : ∀ e ∈ t, k < e.1) (ks : List String) :
    leaf? (k :: ks) t = none := by
  rw [leaf?_cons, Keyed.find?_eq_none_of_lt h]
  rfl

/-- In an increasing tree no leaf stands before the first key. -/
theorem not_lt_of_leaf? (ht : Keyed.Sorted ((k, c) :: t)) {ks : List String}
    (h : (leaf? (l :: ks) ((k, c) :: t)).isSome = true) : ¬ l < k := by
  rw [leaf?_cons] at h
  exact Keyed.not_lt_of_isSome_find? ht (Option.isSome_of_isSome_bind h)

end PredicateTree

/-! ### Every key leads to a leaf -/

mutual

theorem Condition.Fits.exists_leaf? : {s : Shape} → {k : String} → (c : Condition) →
    c.Fits σ s k → ∃ ks, (c.leaf? ks).isSome = true
  | _, _, .value _, _ => ⟨[], rfl⟩
  | _, _, .op _, _ => ⟨[], rfl⟩
  | _, _, .nested t, ⟨hne, _, _, ht⟩ => PredicateTree.Fits.exists_leaf? t ht hne

theorem PredicateTree.Fits.exists_leaf? : {s : Shape} → (t : List (String × Condition)) →
    PredicateTree.Fits σ s t → t ≠ [] → ∃ ks, (PredicateTree.leaf? ks t).isSome = true
  | _, [], _, hne => absurd rfl hne
  | _, (k, c) :: t, ⟨_, _, hc, _⟩, _ => by
    obtain ⟨ks, hks⟩ := Condition.Fits.exists_leaf? c hc
    exact ⟨k :: ks, by rw [PredicateTree.leaf?_cons_self]; exact hks⟩

end

/-- A nested tree of a tree that fits is not empty, however deep it stands. -/
theorem PredicateTree.Fits.ne_nil_of_find? {s : Shape} {t u : PredicateTree} (ht : Fits σ s t)
    {ks : List String} (h : find? ks t = some (.nested u)) : u ≠ [] := by
  induction ks generalizing s t with
  | nil => cases h
  | cons k ks ih =>
    cases ks with
    | nil => exact (ht.of_find? h).1
    | cons k' ks =>
      rw [find?, Option.bind_eq_some_iff] at h
      · obtain ⟨v, hv, h⟩ := h
        obtain ⟨c, hc, hv⟩ := Option.bind_eq_some_iff.1 hv
        cases c with
        | value _ => cases hv
        | op _ => cases hv
        | nested v' =>
          cases hv
          obtain ⟨_, s', _, hfits⟩ := ht.of_find? hc
          exact ih hfits h
      · simp

/-! ### Equality from leaves -/

theorem Condition.eq_of_leaf?_nil {c d : Condition} (h : d.leaf? [] = some c) : d = c := by
  cases d with
  | nested t => cases h
  | value v => exact Option.some.inj h
  | op o => exact Option.some.inj h

theorem Condition.exists_nested_of_leaf? {d : Condition} {k : String} {ks : List String}
    (h : (d.leaf? (k :: ks)).isSome = true) : ∃ t, d = .nested t := by
  cases d with
  | nested t => exact ⟨t, rfl⟩
  | value v => cases h
  | op o => cases h

mutual

theorem Condition.Fits.eq_of_leaf? : {s : Shape} → {k : String} → (c : Condition) →
    {d : Condition} → c.Fits σ s k → d.Fits σ s k → (∀ ks, c.leaf? ks = d.leaf? ks) → c = d
  | _, _, .value _, _, _, _, h => (Condition.eq_of_leaf?_nil (h []).symm).symm
  | _, _, .op _, _, _, _, h => (Condition.eq_of_leaf?_nil (h []).symm).symm
  | _, _, .nested t, d, ⟨hne, s', hs', ht⟩, hd, h => by
    obtain ⟨ks, hks⟩ := PredicateTree.Fits.exists_leaf? t ht hne
    rw [← Condition.leaf?_nested, h] at hks
    obtain ⟨u, rfl⟩ : ∃ u, d = .nested u := by
      cases ks with
      | nil =>
        rw [← h] at hks
        cases hks
      | cons l ks => exact Condition.exists_nested_of_leaf? hks
    obtain ⟨_, s'', hs'', hu⟩ := hd
    rw [hs'] at hs''
    cases hs''
    rw [PredicateTree.Fits.eq_of_leaf? t ht hu h]

/-- Two trees of one shape with the same leaves are the same. -/
theorem PredicateTree.Fits.eq_of_leaf? : {s : Shape} → (t : List (String × Condition)) →
    {u : PredicateTree} → PredicateTree.Fits σ s t → PredicateTree.Fits σ s u →
    (∀ ks, PredicateTree.leaf? ks t = PredicateTree.leaf? ks u) → t = u
  | _, [], [], _, _, _ => rfl
  | _, [], e :: u, _, hu, h => by
    obtain ⟨ks, hks⟩ := PredicateTree.Fits.exists_leaf? (e :: u) hu (List.cons_ne_nil _ _)
    rw [← h, PredicateTree.leaf?_empty] at hks
    cases hks
  | _, e :: t, [], ht, _, h => by
    obtain ⟨ks, hks⟩ := PredicateTree.Fits.exists_leaf? (e :: t) ht (List.cons_ne_nil _ _)
    rw [h, PredicateTree.leaf?_empty] at hks
    cases hks
  | _, (k, c) :: t, (l, d) :: u, ht, hu, h => by
    have hts := PredicateTree.Fits.sorted ht
    have hus := PredicateTree.Fits.sorted hu
    obtain ⟨htlt, _, hc, ht'⟩ := ht
    obtain ⟨hult, _, hd, hu'⟩ := hu
    -- the first keys are the same, for behind each of them stands a leaf of both trees
    have hkl : k = l := by
      obtain ⟨ks, hks⟩ := Condition.Fits.exists_leaf? c hc
      obtain ⟨ls, hls⟩ := Condition.Fits.exists_leaf? d hd
      rw [← PredicateTree.leaf?_cons_self (k := k) (t := t), h] at hks
      rw [← PredicateTree.leaf?_cons_self (k := l) (t := u), ← h] at hls
      have hle := PredicateTree.not_lt_of_leaf? hus hks
      have hge := PredicateTree.not_lt_of_leaf? hts hls
      exact Std.le_antisymm (String.not_lt.1 hge) (String.not_lt.1 hle)
    subst hkl
    have hcd : ∀ ks, c.leaf? ks = d.leaf? ks := by
      intro ks
      rw [← PredicateTree.leaf?_cons_self (k := k) (t := t), h, PredicateTree.leaf?_cons_self]
    have htu : ∀ ks, PredicateTree.leaf? ks t = PredicateTree.leaf? ks u := by
      intro ks
      cases ks with
      | nil => rfl
      | cons k' ks =>
        by_cases hk : k' = k
        · rw [hk, PredicateTree.leaf?_eq_none_of_lt htlt, PredicateTree.leaf?_eq_none_of_lt hult]
        · rw [← PredicateTree.leaf?_cons_of_ne (c := c) hk, h, PredicateTree.leaf?_cons_of_ne hk]
    rw [Condition.Fits.eq_of_leaf? c hc hd hcd, PredicateTree.Fits.eq_of_leaf? t ht' hu' htu]

end

end RowQuery
