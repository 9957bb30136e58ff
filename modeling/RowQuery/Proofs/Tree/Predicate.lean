import RowQuery.Proofs.Path
import RowQuery.Proofs.Keyed

/-!
# Conditions at the leaves of a tree

A tree is looked at through its leaves: the values and operators at the ends of its chains of keys.
A tree fits a shape if its leaves stand at plain fields and its nested trees under relations, and on
trees that fit the same shape a merge is pointwise (`leaf?_merge`): the later tree decides where it
has a leaf, and the earlier one everywhere else.
-/

namespace RowQuery

/-! ### Merging, key by key -/

namespace PredicateTree

theorem merge_eq_mergeWith (t u : PredicateTree) :
    t.merge u = Keyed.mergeWith Condition.writeOver u t := by
  induction u generalizing t with
  | nil => exact merge_nil t
  | cons e u ih => rw [merge_cons, ih, Keyed.mergeWith]

theorem find?_merge {t u : PredicateTree} (hu : Keyed.Sorted u) (k : String) :
    Keyed.find? k (t.merge u) =
      match Keyed.find? k u with
      | some c => some (c.writeOver (Keyed.find? k t))
      | none => Keyed.find? k t := by
  rw [merge_eq_mergeWith, Keyed.find?_mergeWith _ hu]
  cases Keyed.find? k u <;> rfl

theorem merge_ne_nil {t u : PredicateTree} (h : t ≠ []) : t.merge u ≠ [] := by
  rw [merge_eq_mergeWith]
  exact Keyed.mergeWith_ne_nil _ h

end PredicateTree

/-! ### Leaves -/

def Condition.isLeaf : Condition → Prop
  | .nested _ => False
  | _ => True

/-- The value or operator that a chain of keys leads to from a condition. -/
def Condition.leaf? : List String → Condition → Option Condition
  | [], .nested _ => none
  | [], c => some c
  | k :: ks, .nested t => (Keyed.find? k t).bind (Condition.leaf? ks)
  | _ :: _, _ => none

/-- The value or operator at the end of a chain of keys. -/
def PredicateTree.leaf? (ks : List String) (t : PredicateTree) : Option Condition :=
  Condition.leaf? ks (.nested t)

namespace Condition

theorem leaf?_nil {c : Condition} (hc : c.isLeaf) : c.leaf? [] = some c := by
  cases c with
  | nested t => exact hc.elim
  | value v => rfl
  | op o => rfl

theorem leaf?_cons {c : Condition} (hc : c.isLeaf) (k : String) (ks : List String) :
    c.leaf? (k :: ks) = none := by
  cases c with
  | nested t => exact hc.elim
  | value v => rfl
  | op o => rfl

theorem leaf?_nested (ks : List String) (t : PredicateTree) :
    (nested t).leaf? ks = PredicateTree.leaf? ks t := rfl

/-- What is written over a leaf, or is one, stays as it is. -/
theorem writeOver_of_isLeaf {new old : Condition} (h : new.isLeaf ∨ old.isLeaf) :
    new.writeOver (some old) = new := by
  cases new with
  | nested t =>
    cases old with
    | nested u => exact (h.elim id id).elim
    | value v => rfl
    | op o => rfl
  | value v => cases old <;> rfl
  | op o => cases old <;> rfl

theorem writeOver_none (new : Condition) : new.writeOver none = new := by
  cases new <;> rfl

end Condition

namespace PredicateTree

theorem merge_nil_atPath (ks : List String) (c : Condition) :
    merge [] (atPath ks c) = atPath ks c := by
  match ks with
  | [] => simp [atPath]
  | [k] => simp [atPath, merge_cons, Condition.writeOver_none, Keyed.insert]
  | k :: k' :: ks => simp [atPath, merge_cons, Condition.writeOver_none, Keyed.insert]

@[simp] theorem leaf?_nil (t : PredicateTree) : leaf? [] t = none := rfl

theorem leaf?_cons (k : String) (ks : List String) (t : PredicateTree) :
    leaf? (k :: ks) t = (Keyed.find? k t).bind (Condition.leaf? ks) := by
  rw [leaf?, Condition.leaf?]

@[simp] theorem leaf?_empty (ks : List String) : leaf? ks [] = none := by
  cases ks with
  | nil => rfl
  | cons k ks => rw [leaf?_cons]; rfl

/-- The tree of one path has its leaves where the condition at its end has them. -/
theorem leaf?_atPath {ks : List String} (hne : ks ≠ []) (c : Condition) (ls : List String) :
    leaf? (ks ++ ls) (atPath ks c) = c.leaf? ls := by
  induction ks with
  | nil => exact absurd rfl hne
  | cons k ks ih =>
    cases ks with
    | nil => simp [atPath, leaf?_cons, Keyed.find?_cons]
    | cons k' ks =>
      rw [List.cons_append, leaf?_cons, atPath, Keyed.find?_cons, if_pos rfl, Option.bind_some,
        Condition.leaf?_nested]
      · exact ih (by simp)
      · exact List.cons_ne_nil _ _

theorem leaf?_atPath_elsewhere {ks ls : List String} (h : ¬ ks <+: ls) (c : Condition) :
    leaf? ls (atPath ks c) = none := by
  induction ks generalizing ls with
  | nil => exact absurd List.nil_prefix h
  | cons k ks ih =>
    cases ls with
    | nil => rfl
    | cons l ls =>
      by_cases hl : l = k
      · subst hl
        have htail : ¬ ks <+: ls := fun hp => h (List.cons_prefix_cons.2 ⟨rfl, hp⟩)
        cases ks with
        | nil => exact absurd List.nil_prefix htail
        | cons k' ks =>
          rw [leaf?_cons, atPath, Keyed.find?_cons, if_pos rfl, Option.bind_some,
            Condition.leaf?_nested]
          · exact ih htail
          · exact List.cons_ne_nil _ _
      · cases ks <;> simp [leaf?_cons, atPath, Keyed.find?_cons, hl]

end PredicateTree

/-! ### Trees of a shape -/

/-- The shape has a field of this name that is no relation. -/
def Shape.HasPlain (s : Shape) (key : String) : Prop :=
  ∃ f, s.field? key = some f ∧ f.isRelation = false

mutual

/-- The condition can stand under a field of the shape: a leaf at a plain field, and a tree that
fits the related shape and is not empty at a relation. -/
def Condition.Fits (σ : Schema) (s : Shape) (key : String) : Condition → Prop
  | .value _ => s.HasPlain key
  | .op _ => s.HasPlain key
  | .nested t => t ≠ [] ∧ ∃ s', σ.related? s key = some s' ∧ PredicateTree.Fits σ s' t

/-- The keys increase and name fields of the shape, and every condition fits its field. -/
def PredicateTree.Fits (σ : Schema) (s : Shape) : List (String × Condition) → Prop
  | [] => True
  | (k, c) :: t =>
    (∀ e ∈ t, k < e.1) ∧ IsSegment k ∧ c.Fits σ s k ∧ PredicateTree.Fits σ s t

end

section Fits

variable {σ : Schema} {s : Shape}

theorem Condition.fits_of_isLeaf {c : Condition} (hc : c.isLeaf) {k : String} :
    c.Fits σ s k ↔ s.HasPlain k := by
  cases c with
  | nested t => exact hc.elim
  | value v => exact Iff.rfl
  | op o => exact Iff.rfl

/-- A relation is no plain field. -/
theorem Condition.Fits.isLeaf_iff {c : Condition} {k : String} (h : c.Fits σ s k) :
    c.isLeaf ↔ s.HasPlain k := by
  constructor
  · exact fun hc => (fits_of_isLeaf hc).1 h
  · rintro ⟨f, hf, hr⟩
    cases c with
    | nested t =>
      obtain ⟨_, s', hs', _⟩ := h
      obtain ⟨f', r, hf', hr', _⟩ := Schema.related?_eq_some.1 hs'
      rw [hf] at hf'
      cases hf'
      rw [Field.isRelation, hr'] at hr
      cases hr
    | value v => trivial
    | op o => trivial

namespace PredicateTree

theorem fits_nil : Fits σ s [] := trivial

theorem fits_iff {t : PredicateTree} :
    Fits σ s t ↔ Keyed.Sorted t ∧ ∀ e ∈ t, IsSegment e.1 ∧ e.2.Fits σ s e.1 := by
  induction t with
  | nil => simp [Fits, Keyed.Sorted.nil]
  | cons e t ih =>
    obtain ⟨k, c⟩ := e
    simp only [Fits, ih, Keyed.sorted_cons, List.forall_mem_cons]
    constructor
    · rintro ⟨hlt, hk, hc, hs, ht⟩
      exact ⟨⟨hlt, hs⟩, ⟨hk, hc⟩, ht⟩
    · rintro ⟨⟨hlt, hs⟩, ⟨hk, hc⟩, ht⟩
      exact ⟨hlt, hk, hc, hs, ht⟩

theorem Fits.sorted {t : PredicateTree} (ht : Fits σ s t) : Keyed.Sorted t := (fits_iff.1 ht).1

theorem Fits.of_find? {t : PredicateTree} (ht : Fits σ s t) {k : String} {c : Condition}
    (h : Keyed.find? k t = some c) : c.Fits σ s k :=
  ((fits_iff.1 ht).2 _ (Keyed.mem_of_find? h)).2

theorem Fits.insert {t : PredicateTree} (ht : Fits σ s t) {k : String} {c : Condition}
    (hk : IsSegment k) (hc : c.Fits σ s k) : Fits σ s (Keyed.insert k c t) := by
  obtain ⟨hs, hall⟩ := fits_iff.1 ht
  refine fits_iff.2 ⟨hs.insert k c, fun e he => ?_⟩
  rcases Keyed.mem_insert he with rfl | he
  · exact ⟨hk, hc⟩
  · exact hall e he

end PredicateTree

mutual

theorem Condition.Fits.writeOver : {s : Shape} → {k : String} → (new : Condition) →
    {old : Option Condition} → new.Fits σ s k → (∀ o, old = some o → o.Fits σ s k) →
    (new.writeOver old).Fits σ s k
  | _, _, .value _, _, hn, _ => hn
  | _, _, .op _, _, hn, _ => hn
  | _, _, .nested _, none, hn, _ => hn
  | _, _, .nested _, some (.value _), hn, _ => hn
  | _, _, .nested _, some (.op _), hn, _ => hn
  | _, _, .nested source, some (.nested target), ⟨_, s', hs', hn⟩, ho => by
    obtain ⟨hne, s'', hs'', ht⟩ := ho _ rfl
    rw [hs'] at hs''
    cases hs''
    exact ⟨PredicateTree.merge_ne_nil hne, s', hs', PredicateTree.Fits.mergeInto source hn ht⟩

theorem PredicateTree.Fits.mergeInto : {s : Shape} → (source : List (String × Condition)) →
    {target : PredicateTree} → PredicateTree.Fits σ s source → PredicateTree.Fits σ s target →
    PredicateTree.Fits σ s (PredicateTree.mergeInto source target)
  | _, [], _, _, ht => ht
  | _, (_, c) :: source, _, ⟨_, hk, hc, hs⟩, ht =>
    PredicateTree.Fits.mergeInto source hs
      (ht.insert hk (Condition.Fits.writeOver c hc fun _ ho => ht.of_find? ho))

end

namespace PredicateTree

theorem Fits.merge {t u : PredicateTree} (ht : Fits σ s t) (hu : Fits σ s u) :
    Fits σ s (t.merge u) :=
  Fits.mergeInto u hu ht

/-- A condition fits at the end of a path if the path leads to a shape whose field it fits. -/
theorem fits_atPath {t : Shape} {ks : List String} {k : String} {c : Condition}
    (hks : ∀ l ∈ ks ++ [k], IsSegment l) (ht : σ.follow? s ks = some t) (hc : c.Fits σ t k) :
    Fits σ s (atPath (ks ++ [k]) c) := by
  induction ks generalizing s with
  | nil =>
    cases ht
    exact ⟨nofun, hks k (by simp), hc, trivial⟩
  | cons l ks ih =>
    rw [Schema.follow?_cons, Option.bind_eq_some_iff] at ht
    obtain ⟨s', hs', ht⟩ := ht
    have htail : Fits σ s' (atPath (ks ++ [k]) c) :=
      ih (fun l' hl' => hks l' (List.mem_cons_of_mem l hl')) ht
    rw [List.cons_append, atPath]
    · refine ⟨nofun, hks l (by simp), ⟨?_, s', hs', htail⟩, trivial⟩
      cases ks with
      | nil => exact List.cons_ne_nil _ _
      | cons l' ks => cases ks <;> exact List.cons_ne_nil _ _
    · simp

/-- On trees of one shape the later leaf at a path wins, and no other leaf is touched. -/
theorem leaf?_merge {t u : PredicateTree} (ht : Fits σ s t) (hu : Fits σ s u)
    (ks : List String) : leaf? ks (t.merge u) = (leaf? ks u).or (leaf? ks t) := by
  induction ks generalizing s t u with
  | nil => rfl
  | cons k ks ih =>
    rw [leaf?_cons, leaf?_cons, leaf?_cons, find?_merge hu.sorted]
    cases hn : Keyed.find? k u with
    | none => rfl
    | some c =>
      have hc : c.Fits σ s k := hu.of_find? hn
      cases ho : Keyed.find? k t with
      | none => simp [Condition.writeOver_none]
      | some d =>
        have hd : d.Fits σ s k := ht.of_find? ho
        -- both are leaves or both are nested, for the field is plain or a relation
        by_cases hleaf : s.HasPlain k
        · have hcl := hc.isLeaf_iff.2 hleaf
          have hdl := hd.isLeaf_iff.2 hleaf
          simp only [Option.bind_some, Condition.writeOver_of_isLeaf (.inl hcl)]
          cases ks with
          | nil => rw [Condition.leaf?_nil hcl, Option.some_or]
          | cons l ks => rw [Condition.leaf?_cons hcl, Condition.leaf?_cons hdl, Option.or_none]
        · cases c with
          | value v => exact absurd (hc.isLeaf_iff.1 trivial) hleaf
          | op o => exact absurd (hc.isLeaf_iff.1 trivial) hleaf
          | nested c =>
            cases d with
            | value v => exact absurd (hd.isLeaf_iff.1 trivial) hleaf
            | op o => exact absurd (hd.isLeaf_iff.1 trivial) hleaf
            | nested d =>
              obtain ⟨_, s', hs', hc⟩ := hc
              obtain ⟨_, s'', hs'', hd⟩ := hd
              rw [hs'] at hs''
              cases hs''
              exact ih hd hc

end PredicateTree

end Fits

end RowQuery
