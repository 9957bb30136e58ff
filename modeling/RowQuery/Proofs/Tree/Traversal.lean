import RowQuery.Proofs.Tree.Predicate

/-!
# The conditions of a predicate one by one

A leaf is a condition together with the place where it stands. `leaves` lists the leaves of a tree
in the order of its keys, those of a nested tree in the place of the tree. A literal condition is a
leaf with the operator that asks for equality.
-/

namespace RowQuery

structure Leaf where
  /-- The keys of the nested trees around the condition, the outermost first. -/
  chain : List String
  field : String
  operator : Operator
deriving Repr

mutual

def Condition.leaves (chain : List String) (key : String) : Condition → List Leaf
  | .value v => [⟨chain, key, .equal v⟩]
  | .op o => [⟨chain, key, o⟩]
  | .nested t => PredicateTree.leavesBelow (chain ++ [key]) t

/-- The leaves of a tree that a chain of keys leads to. -/
def PredicateTree.leavesBelow (chain : List String) : List (String × Condition) → List Leaf
  | [] => []
  | (k, c) :: t => c.leaves chain k ++ PredicateTree.leavesBelow chain t

end

def PredicateTree.leaves (t : PredicateTree) : List Leaf := leavesBelow [] t

/-- The leaves of all alternatives, one alternative after the other. -/
def Predicate.leaves (p : Predicate) : List Leaf := p.alternatives.flatMap PredicateTree.leaves

/-! ### Leaves of a tree that fits -/

/-- The chain of the leaf leads from the shape to one that has the field. -/
structure Leaf.Fits (σ : Schema) (s : Shape) (l : Leaf) : Prop where
  segments : ∀ k ∈ l.chain, IsSegment k
  field : ∃ t, σ.follow? s l.chain = some t ∧ t.HasPlain l.field

section Fits

variable {σ : Schema} {s₀ : Shape}

mutual

theorem Condition.Fits.leaves : {s : Shape} → {chain : List String} → {key : String} →
    (c : Condition) → c.Fits σ s key → IsSegment key → (∀ k ∈ chain, IsSegment k) →
    σ.follow? s₀ chain = some s → ∀ l ∈ c.leaves chain key, l.Fits σ s₀
  | s, _, _, .value _, hc, _, hchain, hs, l, hl => by
    rw [Condition.leaves, List.mem_singleton] at hl
    subst hl
    exact ⟨hchain, s, hs, hc⟩
  | s, _, _, .op _, hc, _, hchain, hs, l, hl => by
    rw [Condition.leaves, List.mem_singleton] at hl
    subst hl
    exact ⟨hchain, s, hs, hc⟩
  | s, chain, key, .nested t, ⟨_, s', hs', ht⟩, hkey, hchain, hs, l, hl => by
    have hchain' : ∀ k ∈ chain ++ [key], IsSegment k := by
      simpa only [List.forall_mem_append, List.forall_mem_singleton] using ⟨hchain, hkey⟩
    have hfollow : σ.follow? s₀ (chain ++ [key]) = some s' := by
      rw [Schema.follow?_append, hs, Option.bind_some, Schema.follow?_cons, hs']
      rfl
    exact PredicateTree.Fits.leavesBelow t ht hchain' hfollow l hl

/-- The leaves of a tree that fits the end of a chain fit its beginning. -/
theorem PredicateTree.Fits.leavesBelow : {s : Shape} → {chain : List String} →
    (t : List (String × Condition)) → PredicateTree.Fits σ s t → (∀ k ∈ chain, IsSegment k) →
    σ.follow? s₀ chain = some s → ∀ l ∈ PredicateTree.leavesBelow chain t, l.Fits σ s₀
  | _, _, [], _, _, _, _, hl => by cases hl
  | _, _, (_, c) :: t, ⟨_, hk, hc, ht⟩, hchain, hs, l, hl => by
    rw [PredicateTree.leavesBelow, List.mem_append] at hl
    rcases hl with hl | hl
    · exact Condition.Fits.leaves c hc hk hchain hs l hl
    · exact PredicateTree.Fits.leavesBelow t ht hchain hs l hl

end

end Fits

/-! ### What every operator satisfies -/

mutual

/-- Every operator in the condition satisfies `P`. -/
def Condition.Every (P : Operator → Prop) : Condition → Prop
  | .value v => P (.equal v)
  | .op o => P o
  | .nested t => PredicateTree.Every P t

def PredicateTree.Every (P : Operator → Prop) : List (String × Condition) → Prop
  | [] => True
  | (_, c) :: t => c.Every P ∧ PredicateTree.Every P t

end

variable {P Q : Operator → Prop}

mutual

theorem Condition.Every.mono (h : ∀ o, P o → Q o) : (c : Condition) → c.Every P → c.Every Q
  | .value _, hc => h _ hc
  | .op _, hc => h _ hc
  | .nested t, ht => PredicateTree.Every.mono h t ht

theorem PredicateTree.Every.mono (h : ∀ o, P o → Q o) : (t : List (String × Condition)) →
    PredicateTree.Every P t → PredicateTree.Every Q t
  | [], _ => trivial
  | (_, c) :: t, ⟨hc, ht⟩ => ⟨Condition.Every.mono h c hc, PredicateTree.Every.mono h t ht⟩

end

mutual

theorem Condition.Every.leaves : {chain : List String} → {key : String} → (c : Condition) →
    c.Every P → ∀ l ∈ c.leaves chain key, P l.operator
  | _, _, .value _, hc, l, hl => by
    rw [Condition.leaves, List.mem_singleton] at hl
    subst hl
    exact hc
  | _, _, .op _, hc, l, hl => by
    rw [Condition.leaves, List.mem_singleton] at hl
    subst hl
    exact hc
  | _, _, .nested t, hc, l, hl => PredicateTree.Every.leavesBelow t hc l hl

theorem PredicateTree.Every.leavesBelow : {chain : List String} →
    (t : List (String × Condition)) → PredicateTree.Every P t →
    ∀ l ∈ PredicateTree.leavesBelow chain t, P l.operator
  | _, [], _, _, hl => by cases hl
  | _, (_, c) :: t, ⟨hc, ht⟩, l, hl => by
    rw [PredicateTree.leavesBelow, List.mem_append] at hl
    rcases hl with hl | hl
    · exact Condition.Every.leaves c hc l hl
    · exact PredicateTree.Every.leavesBelow t ht l hl

end

namespace PredicateTree

theorem every_nil : Every P [] := trivial

theorem every_iff {t : PredicateTree} : Every P t ↔ ∀ e ∈ t, e.2.Every P := by
  induction t with
  | nil => simp [Every]
  | cons e t ih => simp only [Every, ih, List.forall_mem_cons]

theorem Every.of_find? {t : PredicateTree} (ht : Every P t) {k : String} {c : Condition}
    (h : Keyed.find? k t = some c) : c.Every P :=
  every_iff.1 ht _ (Keyed.mem_of_find? h)

theorem Every.insert {t : PredicateTree} (ht : Every P t) {k : String} {c : Condition}
    (hc : c.Every P) : Every P (Keyed.insert k c t) := by
  refine every_iff.2 fun e he => ?_
  rcases Keyed.mem_insert he with rfl | he
  · exact hc
  · exact every_iff.1 ht e he

end PredicateTree

mutual

theorem Condition.Every.writeOver : (new : Condition) → {old : Option Condition} →
    new.Every P → (∀ o, old = some o → o.Every P) → (new.writeOver old).Every P
  | .value _, _, hn, _ => hn
  | .op _, _, hn, _ => hn
  | .nested _, none, hn, _ => hn
  | .nested _, some (.value _), hn, _ => hn
  | .nested _, some (.op _), hn, _ => hn
  | .nested source, some (.nested _), hn, ho => PredicateTree.Every.mergeInto source hn (ho _ rfl)

theorem PredicateTree.Every.mergeInto : (source : List (String × Condition)) →
    {target : PredicateTree} → PredicateTree.Every P source → PredicateTree.Every P target →
    PredicateTree.Every P (PredicateTree.mergeInto source target)
  | [], _, _, ht => ht
  | (_, c) :: source, _, ⟨hc, hs⟩, ht =>
    PredicateTree.Every.mergeInto source hs
      (ht.insert (Condition.Every.writeOver c hc fun _ ho => ht.of_find? ho))

end

namespace PredicateTree

theorem Every.merge {t u : PredicateTree} (ht : Every P t) (hu : Every P u) :
    Every P (t.merge u) :=
  Every.mergeInto u hu ht

theorem every_atPath {c : Condition} (hc : c.Every P) (ks : List String) :
    Every P (atPath ks c) := by
  induction ks with
  | nil => trivial
  | cons k ks ih =>
    cases ks with
    | nil => exact ⟨hc, trivial⟩
    | cons k' ks => exact ⟨ih, trivial⟩

end PredicateTree

/-! ### Counting leaves -/

section Count

variable (p : Operator → Bool)

/-- How many of the leaves have an operator that `p` picks. -/
def Leaf.count (ls : List Leaf) : Nat := ls.countP fun l => p l.operator

@[simp] theorem Leaf.count_append (ls ls' : List Leaf) :
    Leaf.count p (ls ++ ls') = Leaf.count p ls + Leaf.count p ls' :=
  List.countP_append

theorem Leaf.count_eq_zero {ls : List Leaf} :
    Leaf.count p ls = 0 ↔ ∀ l ∈ ls, p l.operator = false := by
  simp [count, List.countP_eq_zero]

namespace PredicateTree

variable {p} {t : PredicateTree}

theorem count_leavesBelow_eq_zero (ht : Every (p · = false) t) (chain : List String) :
    Leaf.count p (leavesBelow chain t) = 0 :=
  (Leaf.count_eq_zero p).2 (ht.leavesBelow t)

/-- Where nothing is picked, there is no more to pick than what is put in. -/
theorem count_insert (ht : Every (p · = false) t) (chain : List String) (k : String)
    (c : Condition) :
    Leaf.count p (leavesBelow chain (Keyed.insert k c t)) = Leaf.count p (c.leaves chain k) := by
  induction t with
  | nil => simp [Keyed.insert, leavesBelow]
  | cons e t ih =>
    obtain ⟨k', c'⟩ := e
    have hall : Leaf.count p (leavesBelow chain ((k', c') :: t)) = 0 :=
      count_leavesBelow_eq_zero ht chain
    rw [leavesBelow, Leaf.count_append, Nat.add_eq_zero_iff] at hall
    obtain ⟨hhead, hrest⟩ := hall
    rw [Keyed.insert]
    split
    · simp [leavesBelow, hhead, hrest]
    · split
      · simp [leavesBelow, hrest]
      · simp [leavesBelow, hhead, ih ht.2]

/-- An operator that is merged in at the end of a path is the only one that is picked. -/
theorem count_merge_atPath {o : Operator} (ho : p o = true) {ks : List String} (hks : ks ≠ [])
    (ht : Every (p · = false) t) (chain : List String) :
    Leaf.count p (leavesBelow chain (t.merge (atPath ks (.op o)))) = 1 := by
  induction ks generalizing t chain with
  | nil => exact absurd rfl hks
  | cons k ks ih =>
    cases ks with
    | nil =>
      rw [atPath, merge_cons, merge_nil, count_insert ht]
      simp [Condition.writeOver, Condition.leaves, Leaf.count, ho]
    | cons k' ks =>
      have hne : k' :: ks ≠ [] := List.cons_ne_nil _ _
      -- what stood under the key is a tree to merge into, or makes room for the rest of the path
      obtain ⟨u, hu, hwrite⟩ : ∃ u : PredicateTree, Every (p · = false) u ∧
          (Condition.nested (atPath (k' :: ks) (.op o))).writeOver (Keyed.find? k t) =
            .nested (u.merge (atPath (k' :: ks) (.op o))) := by
        cases hold : Keyed.find? k t with
        | none => exact ⟨[], every_nil, by rw [merge_nil_atPath]; rfl⟩
        | some d =>
          cases d with
          | nested u => exact ⟨u, ht.of_find? hold, rfl⟩
          | value _ => exact ⟨[], every_nil, by rw [merge_nil_atPath]; rfl⟩
          | op _ => exact ⟨[], every_nil, by rw [merge_nil_atPath]; rfl⟩
      have hpath : atPath (k :: k' :: ks) (.op o) = [(k, .nested (atPath (k' :: ks) (.op o)))] :=
        rfl
      rw [hpath, merge_cons, merge_nil, hwrite, count_insert ht]
      exact ih hne hu (chain ++ [k])

end PredicateTree

end Count

end RowQuery
