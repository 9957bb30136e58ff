import RowQuery.Keyed

/-!
# Merging entries

`mergeWith f` writes the entries of one list over those of another, one after the other, with `f`
deciding what stands where both have an entry. With increasing keys on the writing side it is
pointwise (`find?_mergeWith`).
-/

namespace RowQuery.Keyed

variable {α : Type} {k : String} {a : α} {xs ys : List (String × α)}

/-! ### Look-up and membership -/

theorem mem_of_find? (h : find? k xs = some a) : (k, a) ∈ xs := by
  induction xs with
  | nil => cases h
  | cons e xs ih =>
    obtain ⟨k', b⟩ := e
    rw [find?_cons] at h
    split at h
    · rename_i hk
      cases h
      rw [hk]
      exact .head _
    · exact .tail _ (ih h)

theorem find?_append (k : String) (xs ys : List (String × α)) :
    find? k (xs ++ ys) = (find? k xs).or (find? k ys) := by
  induction xs with
  | nil => rfl
  | cons e xs ih =>
    rw [List.cons_append, find?_cons, find?_cons, ih]
    split <;> rfl

theorem sorted_cons {e : String × α} :
    Sorted (e :: xs) ↔ (∀ e' ∈ xs, e.1 < e'.1) ∧ Sorted xs :=
  List.pairwise_cons

theorem find?_eq_none_of_lt (h : ∀ e ∈ xs, k < e.1) : find? k xs = none := by
  induction xs with
  | nil => rfl
  | cons e xs ih =>
    rw [find?_cons, if_neg, ih fun e he => h e (.tail _ he)]
    intro hk
    have hlt := h e (.head _)
    rw [← hk] at hlt
    exact String.lt_irrefl k hlt

/-- No key stands before the first one. -/
theorem not_lt_of_isSome_find? {e : String × α} (hx : Sorted (e :: xs))
    (h : (find? k (e :: xs)).isSome = true) : ¬ k < e.1 := by
  intro hlt
  have hall : ∀ e' ∈ e :: xs, k < e'.1 := by
    intro e' he'
    rcases List.mem_cons.1 he' with rfl | he'
    · exact hlt
    · exact String.lt_trans hlt ((sorted_cons.1 hx).1 e' he')
  rw [find?_eq_none_of_lt hall] at h
  cases h

/-- With the same keys, the first keys are the same. -/
theorem fst_eq_of_isSome_find? {e e' : String × α} (hx : Sorted (e :: xs))
    (hy : Sorted (e' :: ys))
    (h : ∀ k, (find? k (e :: xs)).isSome = (find? k (e' :: ys)).isSome) : e.1 = e'.1 := by
  have he : (find? e.1 (e :: xs)).isSome = true := by rw [find?_cons, if_pos rfl]; rfl
  have he' : (find? e'.1 (e' :: ys)).isSome = true := by rw [find?_cons, if_pos rfl]; rfl
  rw [h] at he
  rw [← h] at he'
  have hle := String.not_lt.1 (not_lt_of_isSome_find? hy he)
  have hge := String.not_lt.1 (not_lt_of_isSome_find? hx he')
  exact Std.le_antisymm hge hle

/-- Entries are determined by what stands under each key. -/
theorem Sorted.ext (hx : Sorted xs) (hy : Sorted ys) (h : ∀ k, find? k xs = find? k ys) :
    xs = ys := by
  induction xs generalizing ys with
  | nil =>
    cases ys with
    | nil => rfl
    | cons e ys =>
      have he := h e.1
      rw [find?_cons, if_pos rfl] at he
      cases he
  | cons e xs ih =>
    cases ys with
    | nil =>
      have he := h e.1
      rw [find?_cons, if_pos rfl] at he
      cases he
    | cons e' ys =>
      obtain ⟨k, a⟩ := e
      obtain ⟨k', b⟩ := e'
      have hk : k = k' := fst_eq_of_isSome_find? hx hy fun l => congrArg Option.isSome (h l)
      subst hk
      have hab := h k
      rw [find?_cons, find?_cons, if_pos rfl, if_pos rfl] at hab
      obtain ⟨hltx, hx⟩ := sorted_cons.1 hx
      obtain ⟨hlty, hy⟩ := sorted_cons.1 hy
      have htail : ∀ l, find? l xs = find? l ys := by
        intro l
        by_cases hl : l = k
        · rw [hl, find?_eq_none_of_lt hltx, find?_eq_none_of_lt hlty]
        · have hboth := h l
          rwa [find?_cons, find?_cons, if_neg hl, if_neg hl] at hboth
      rw [Option.some.inj hab, ih hx hy htail]

/-! ### Entries in any order -/

theorem Sorted.ofList (xs : List (String × α)) : Sorted (ofList xs) :=
  List.foldlRecOn xs _ Sorted.nil fun _ hacc e _ => hacc.insert e.1 e.2

theorem find?_foldl_insert (k : String) (xs acc : List (String × α)) :
    find? k (xs.foldl (fun acc e => insert e.1 e.2 acc) acc) =
      (find? k (ofList xs)).or (find? k acc) := by
  induction xs generalizing acc with
  | nil => rfl
  | cons e xs ih =>
    have hone : ofList (e :: xs) = xs.foldl (fun acc e => insert e.1 e.2 acc) [e] := rfl
    rw [hone, List.foldl_cons, ih, ih, Option.or_assoc]
    congr 1
    by_cases hk : k = e.1
    · rw [hk, find?_insert_self, find?_cons, if_pos rfl]
      rfl
    · rw [find?_insert_of_ne _ hk, find?_cons, if_neg hk]
      rfl

/-- A later entry goes before the first. -/
theorem find?_ofList_cons (k : String) (e : String × α) (xs : List (String × α)) :
    find? k (ofList (e :: xs)) = (find? k (ofList xs)).or (find? k [e]) :=
  find?_foldl_insert k xs [e]

/-! ### Writing -/

theorem insert_ne_nil : insert k a xs ≠ [] := by
  intro h
  have hfind := find?_insert_self k a xs
  rw [h] at hfind
  cases hfind

/-! ### Merging -/

section Merge

variable (f : α → Option α → α)

/-- Every entry of the first list is written over what the second has under its key. -/
def mergeWith : (source target : List (String × α)) → List (String × α)
  | [], target => target
  | (k, a) :: source, target => mergeWith source (insert k (f a (find? k target)) target)

theorem mergeWith_ne_nil (hy : ys ≠ []) : mergeWith f xs ys ≠ [] := by
  induction xs generalizing ys with
  | nil => exact hy
  | cons e xs ih => exact ih insert_ne_nil

/-- A merge is pointwise. -/
theorem find?_mergeWith (hx : Sorted xs) (k : String) :
    find? k (mergeWith f xs ys) =
      match find? k xs with
      | some a => some (f a (find? k ys))
      | none => find? k ys := by
  induction xs generalizing ys with
  | nil => rfl
  | cons e xs ih =>
    obtain ⟨k', b⟩ := e
    obtain ⟨hlt, hx⟩ := sorted_cons.1 hx
    rw [mergeWith, ih hx, find?_cons]
    by_cases hk : k = k'
    · subst hk
      rw [find?_eq_none_of_lt hlt, find?_insert_self, if_pos rfl]
    · rw [find?_insert_of_ne _ hk, if_neg hk]

end Merge

end RowQuery.Keyed
