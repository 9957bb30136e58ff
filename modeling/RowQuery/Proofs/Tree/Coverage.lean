import RowQuery.Proofs.Tree.Predicate
import RowQuery.Proofs.Tree.Relation

/-!
# Declared relations and the chains that conditions use

A relation tree fits a shape if each of its chains can be followed from there. A predicate tree is
covered by a set of chains if the chain to each of its nested trees belongs to the set.
-/

namespace RowQuery

variable {σ : Schema} {s : Shape}

/-! ### Relation trees of a shape -/

mutual

def RelationNode.Fits (σ : Schema) (s : Shape) : RelationNode → Prop
  | .load => True
  | .nested t => RelationTree.Fits σ s t

/-- Every declared chain is a chain of relations from the shape. -/
def RelationTree.Fits (σ : Schema) (s : Shape) : List (String × RelationNode) → Prop
  | [] => True
  | (k, n) :: t =>
    (∃ s', σ.related? s k = some s' ∧ n.Fits σ s') ∧ RelationTree.Fits σ s t

end

namespace RelationTree

theorem fits_iff {t : RelationTree} :
    Fits σ s t ↔ ∀ e ∈ t, ∃ s', σ.related? s e.1 = some s' ∧ e.2.Fits σ s' := by
  induction t with
  | nil => simp [Fits]
  | cons e t ih => simp only [Fits, ih, List.forall_mem_cons]

theorem Fits.insert {t : RelationTree} (ht : Fits σ s t) {k : String} {n : RelationNode}
    (hn : ∃ s', σ.related? s k = some s' ∧ n.Fits σ s') : Fits σ s (Keyed.insert k n t) := by
  refine fits_iff.2 fun e he => ?_
  rcases Keyed.mem_insert he with rfl | he
  · exact hn
  · exact fits_iff.1 ht e he

/-- What is declared at a name fits the shape that the name leads to. -/
theorem Fits.of_find? {t : RelationTree} (ht : Fits σ s t) {s' : Shape} {k : String}
    (hs' : σ.related? s k = some s') {n : RelationNode} (h : Keyed.find? k t = some n) :
    n.Fits σ s' := by
  obtain ⟨s'', hs'', hn⟩ := fits_iff.1 ht _ (Keyed.mem_of_find? h)
  rw [hs'] at hs''
  cases hs''
  exact hn

end RelationTree

mutual

theorem RelationNode.Fits.declareOver : {s : Shape} → (new : RelationNode) →
    {old : Option RelationNode} → new.Fits σ s → (∀ o, old = some o → o.Fits σ s) →
    (new.declareOver old).Fits σ s
  | _, .load, none, hn, _ => hn
  | _, .load, some .load, hn, _ => hn
  | _, .load, some (.nested _), _, ho => ho _ rfl
  | _, .nested _, none, hn, _ => hn
  | _, .nested _, some .load, hn, _ => hn
  | _, .nested source, some (.nested _), hn, ho =>
    RelationTree.Fits.mergeInto source hn (ho _ rfl)

theorem RelationTree.Fits.mergeInto : {s : Shape} → (source : List (String × RelationNode)) →
    {target : RelationTree} → RelationTree.Fits σ s source → RelationTree.Fits σ s target →
    RelationTree.Fits σ s (RelationTree.mergeInto source target)
  | _, [], _, _, ht => ht
  | _, (_, n) :: source, _, ⟨⟨s', hs', hn⟩, hs⟩, ht =>
    RelationTree.Fits.mergeInto source hs (ht.insert ⟨s', hs',
      RelationNode.Fits.declareOver n hn fun _ ho => ht.of_find? hs' ho⟩)

end

namespace RelationTree

theorem Fits.merge {t u : RelationTree} (ht : Fits σ s t) (hu : Fits σ s u) :
    Fits σ s (t.merge u) :=
  Fits.mergeInto u hu ht

theorem fits_atPath {ks : List String} {t : Shape} (ht : σ.follow? s ks = some t)
    {n : RelationNode} (hn : n.Fits σ t) : Fits σ s (atPath ks n) := by
  induction ks generalizing s with
  | nil => trivial
  | cons k ks ih =>
    rw [Schema.follow?_cons, Option.bind_eq_some_iff] at ht
    obtain ⟨s', hs', ht⟩ := ht
    cases ks with
    | nil =>
      cases ht
      exact ⟨⟨t, hs', hn⟩, trivial⟩
    | cons k' ks => exact ⟨⟨s', hs', ih ht⟩, trivial⟩

end RelationTree

/-! ### Chains of nested trees -/

mutual

def Condition.Covered (D : List String → Prop) : Condition → Prop
  | .nested t => D [] ∧ PredicateTree.Covered D t
  | _ => True

/-- The chain of keys to every nested tree is in `D`. -/
def PredicateTree.Covered (D : List String → Prop) : List (String × Condition) → Prop
  | [] => True
  | (k, c) :: t => c.Covered (fun ks => D (k :: ks)) ∧ PredicateTree.Covered D t

end

theorem Condition.covered_of_isLeaf {D : List String → Prop} {c : Condition} (hc : c.isLeaf) :
    c.Covered D := by
  cases c with
  | nested t => exact hc.elim
  | value v => trivial
  | op o => trivial

mutual

theorem Condition.Covered.mono : {D E : List String → Prop} → (c : Condition) → c.Covered D →
    (∀ ks, D ks → E ks) → c.Covered E
  | _, _, .value _, _, _ => trivial
  | _, _, .op _, _, _ => trivial
  | _, _, .nested t, ⟨h, ht⟩, hDE => ⟨hDE _ h, PredicateTree.Covered.mono t ht hDE⟩

theorem PredicateTree.Covered.mono : {D E : List String → Prop} → (t : List (String × Condition)) →
    PredicateTree.Covered D t → (∀ ks, D ks → E ks) → PredicateTree.Covered E t
  | _, _, [], _, _ => trivial
  | _, _, (k, c) :: t, ⟨hc, ht⟩, hDE =>
    ⟨Condition.Covered.mono c hc fun ks => hDE (k :: ks), PredicateTree.Covered.mono t ht hDE⟩

end

namespace PredicateTree

variable {D : List String → Prop}

theorem covered_iff {t : PredicateTree} :
    Covered D t ↔ ∀ e ∈ t, e.2.Covered fun ks => D (e.1 :: ks) := by
  induction t with
  | nil => simp [Covered]
  | cons e t ih => simp only [Covered, ih, List.forall_mem_cons]

theorem Covered.of_find? {t : PredicateTree} (ht : Covered D t) {k : String} {c : Condition}
    (h : Keyed.find? k t = some c) : c.Covered fun ks => D (k :: ks) :=
  covered_iff.1 ht _ (Keyed.mem_of_find? h)

theorem Covered.insert {t : PredicateTree} (ht : Covered D t) {k : String} {c : Condition}
    (hc : c.Covered fun ks => D (k :: ks)) : Covered D (Keyed.insert k c t) := by
  refine covered_iff.2 fun e he => ?_
  rcases Keyed.mem_insert he with rfl | he
  · exact hc
  · exact covered_iff.1 ht e he

end PredicateTree

mutual

theorem Condition.Covered.writeOver : {D : List String → Prop} → (new : Condition) →
    {old : Option Condition} → new.Covered D → (∀ o, old = some o → o.Covered D) →
    (new.writeOver old).Covered D
  | _, .value _, _, hn, _ => hn
  | _, .op _, _, hn, _ => hn
  | _, .nested _, none, hn, _ => hn
  | _, .nested _, some (.value _), hn, _ => hn
  | _, .nested _, some (.op _), hn, _ => hn
  | _, .nested source, some (.nested _), ⟨h, hn⟩, ho =>
    ⟨h, PredicateTree.Covered.mergeInto source hn (ho _ rfl).2⟩

theorem PredicateTree.Covered.mergeInto : {D : List String → Prop} →
    (source : List (String × Condition)) → {target : PredicateTree} →
    PredicateTree.Covered D source → PredicateTree.Covered D target →
    PredicateTree.Covered D (PredicateTree.mergeInto source target)
  | _, [], _, _, ht => ht
  | _, (_, c) :: source, _, ⟨hc, hs⟩, ht =>
    PredicateTree.Covered.mergeInto source hs
      (ht.insert (Condition.Covered.writeOver c hc fun _ ho => ht.of_find? ho))

end

namespace PredicateTree

variable {D : List String → Prop}

theorem Covered.merge {t u : PredicateTree} (ht : Covered D t) (hu : Covered D u) :
    Covered D (t.merge u) :=
  Covered.mergeInto u hu ht

/-- The tree of one path is covered if the hops of the path are, and what stands at its end. -/
theorem covered_atPath (hclosed : ∀ ks ls, D (ks ++ ls) → D ks) {ks : List String}
    (hks : D ks.dropLast) {c : Condition} (hc : c.Covered fun ls => D (ks ++ ls)) :
    Covered D (atPath ks c) := by
  induction ks generalizing D with
  | nil => trivial
  | cons k ks ih =>
    cases ks with
    | nil => exact ⟨hc, trivial⟩
    | cons k' ks =>
      have hk : D [k] := hclosed [k] _ hks
      have htail : Covered (fun ls => D (k :: ls)) (atPath (k' :: ks) c) :=
        ih (fun ls ms => hclosed (k :: ls) ms) hks hc
      exact ⟨⟨hk, htail⟩, trivial⟩

/-- In a covered tree the chain to a nested tree is covered. -/
theorem Covered.of_find?_eq_nested {t u : PredicateTree} (ht : Covered D t) {ks : List String}
    (h : find? ks t = some (.nested u)) : D ks := by
  induction ks generalizing D t with
  | nil => cases h
  | cons k ks ih =>
    cases ks with
    | nil => exact (ht.of_find? h).1
    | cons k' ks =>
      rw [find?, Option.bind_eq_some_iff] at h
      · obtain ⟨v, hv, h⟩ := h
        obtain ⟨c, hc, hv⟩ := Option.bind_eq_some_iff.1 hv
        cases c with
        | value _ => cases hv
        | op _ => cases hv
        | nested v' =>
          cases hv
          exact ih (ht.of_find? hc).2 h
      · simp

end PredicateTree

end RowQuery
