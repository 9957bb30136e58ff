import RowQuery.Proofs.Directive.Valid

/-!
# What directives write

A list of directives is read as the sequence of its writes, each of which puts a condition at the end
of a chain of keys. The conjunction that valid directives make is known by its leaves: at each chain
stands the last condition written there, and otherwise what stood there before
(`leaf?_conjoinAll`).
-/

namespace RowQuery

/-! ### Sequences of writes -/

/-- The last condition that is written at a chain of keys. -/
def lastWritten (ks : List String) : List (List String × Condition) → Option Condition
  | [] => none
  | (ls, c) :: ws => (lastWritten ks ws).or (if ls = ks then some c else none)

section Writes

variable {ks : List String} {ws : List (List String × Condition)}

theorem lastWritten_append (vs : List (List String × Condition)) :
    lastWritten ks (ws ++ vs) = (lastWritten ks vs).or (lastWritten ks ws) := by
  induction ws with
  | nil => rw [List.nil_append, lastWritten, Option.or_none]
  | cons w ws ih => rw [List.cons_append, lastWritten, lastWritten, ih, Option.or_assoc]

/-- Writes below a chain of keys are read below it. -/
theorem lastWritten_below (ls : List String) :
    lastWritten (ls ++ ks) (ws.map fun w => (ls ++ w.1, w.2)) = lastWritten ks ws := by
  induction ws with
  | nil => rfl
  | cons w ws ih =>
    have hkey : ls ++ w.1 = ls ++ ks ↔ w.1 = ks := List.append_cancel_left_eq ls w.1 ks ▸ Iff.rfl
    rw [List.map_cons, lastWritten, lastWritten, ih]
    by_cases h : w.1 = ks
    · rw [if_pos h, if_pos (hkey.2 h)]
    · rw [if_neg h, if_neg fun hc => h (hkey.1 hc)]

theorem lastWritten_elsewhere {ls : List String} (h : ¬ ls <+: ks) :
    lastWritten ks (ws.map fun w => (ls ++ w.1, w.2)) = none := by
  induction ws with
  | nil => rfl
  | cons w ws ih =>
    have hkey : ls ++ w.1 ≠ ks := fun hc => h ⟨w.1, hc⟩
    rw [List.map_cons, lastWritten, ih, if_neg hkey, Option.or_none]

end Writes

mutual

/-- The conditions that a directive writes, in their order. Alternatives write none of their own. -/
def Directive.writes : Directive → List (List String × Condition)
  | .filter path f => (f.added?.map fun c => (dotPieces path, c)).toList
  | .oneOf path vs => [(dotPieces path, .op (.oneOf vs))]
  | .join relation ds => (writesAll ds).map fun w => (dotPieces relation ++ w.1, w.2)
  | .or _ => []
  | .shape _ => []

def writesAll : List Directive → List (List String × Condition)
  | [] => []
  | d :: ds => d.writes ++ writesAll ds

end

/-! ### Leaves of conjunctions -/

variable {σ : Schema}

namespace PredicateTree

/-- The tree of one leaf has that leaf only. -/
theorem leaf?_atPath_of_isLeaf {c : Condition} (hc : c.isLeaf) {ls : List String} (hne : ls ≠ [])
    (ks : List String) : leaf? ks (atPath ls c) = if ls = ks then some c else none := by
  by_cases hpre : ls <+: ks
  · obtain ⟨ms, rfl⟩ := hpre
    rw [leaf?_atPath hne]
    cases ms with
    | nil => rw [Condition.leaf?_nil hc, List.append_nil, if_pos rfl]
    | cons m ms =>
      have hne' : ls ≠ ls ++ m :: ms := by simp
      rw [Condition.leaf?_cons hc, if_neg hne']
  · have hne' : ls ≠ ks := fun h => hpre (h ▸ List.prefix_rfl)
    rw [leaf?_atPath_elsewhere hpre, if_neg hne']

/-- Conditions that are put under a relation are leaves below it. -/
theorem leaf?_atPath_nested {u : PredicateTree} {ws : List (List String × Condition)}
    (hu : ∀ ks, leaf? ks u = lastWritten ks ws) {ls : List String} (hne : ls ≠ [])
    (ks : List String) :
    leaf? ks (atPath ls (.nested u)) = lastWritten ks (ws.map fun w => (ls ++ w.1, w.2)) := by
  by_cases hpre : ls <+: ks
  · obtain ⟨ms, rfl⟩ := hpre
    rw [leaf?_atPath hne, Condition.leaf?_nested, hu, lastWritten_below]
  · rw [leaf?_atPath_elsewhere hpre, lastWritten_elsewhere hpre]

end PredicateTree

mutual

theorem Directive.leaf?_conjoin : {s : Shape} → {t : PredicateTree} → (d : Directive) →
    d.Valid σ s → PredicateTree.Fits σ s t → (ks : List String) →
    (d.conjoin t).leaf? ks = (lastWritten ks d.writes).or (t.leaf? ks)
  | s, t, .filter path f, h, ht, ks => by
    rw [Directive.conjoin, Directive.writes]
    cases hc : f.added? with
    | none => rfl
    | some c =>
      have hleaf := Filter.isLeaf_of_added? hc
      have hr : Resolves σ s path := Filter.Valid.resolves h hc
      rw [Option.elim_some, PredicateTree.leaf?_merge ht (hr.fits_atPath hleaf),
        PredicateTree.leaf?_atPath_of_isLeaf hleaf (dotPieces_ne_nil path)]
      rfl
  | s, t, .oneOf path vs, h, ht, ks => by
    have hleaf : (Condition.op (.oneOf vs)).isLeaf := trivial
    have hr : Resolves σ s path := h
    rw [Directive.conjoin, Directive.writes, PredicateTree.leaf?_merge ht (hr.fits_atPath hleaf),
      PredicateTree.leaf?_atPath_of_isLeaf hleaf (dotPieces_ne_nil path)]
    rfl
  | s, t, .join relation ds, ⟨s', hs', hds⟩, ht, ks => by
    have hu : ∀ ks, (PredicateTree.conjoinAll [] ds).leaf? ks = lastWritten ks (writesAll ds) := by
      intro ks
      rw [leaf?_conjoinAll ds hds PredicateTree.fits_nil, PredicateTree.leaf?_empty, Option.or_none]
    have hnested := PredicateTree.leaf?_atPath_nested hu (dotPieces_ne_nil relation) ks
    rw [Directive.conjoin, Directive.writes, ← hnested]
    split
    · rename_i hempty
      have hnone := @PredicateTree.leaf?_atPath_nested [] [] PredicateTree.leaf?_empty
        (dotPieces relation) (dotPieces_ne_nil relation) ks
      rw [List.isEmpty_iff.1 hempty, hnone]
      rfl
    · rename_i hempty
      have hne : PredicateTree.conjoinAll [] ds ≠ [] := by simpa using hempty
      have hfits := fits_conjoinAll ds hds PredicateTree.fits_nil
      rw [PredicateTree.leaf?_merge ht (hs'.fits_atPath hfits hne)]
  | _, _, .or _, _, _, _ => rfl
  | _, _, .shape _, _, _, _ => rfl

/-- At each chain of keys stands what is written there last, or else what stood there before. -/
theorem leaf?_conjoinAll : {s : Shape} → {t : PredicateTree} → (ds : List Directive) →
    Directive.AllValid σ s ds → PredicateTree.Fits σ s t → (ks : List String) →
    (t.conjoinAll ds).leaf? ks = (lastWritten ks (writesAll ds)).or (t.leaf? ks)
  | _, _, [], _, _, _ => rfl
  | _, _, d :: ds, ⟨hd, hds⟩, ht, ks => by
    have hfits := Directive.Valid.fits_conjoin d hd ht
    rw [PredicateTree.conjoinAll, leaf?_conjoinAll ds hds hfits, writesAll, lastWritten_append,
      Option.or_assoc, Directive.leaf?_conjoin d hd ht]

end

end RowQuery
