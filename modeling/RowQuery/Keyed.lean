/-!
# Entries under ordered keys

A list of pairs in the strict order of its keys, each key once. `find?` is the view: every
operation is described by what `find?` answers afterwards.
-/

namespace RowQuery.Keyed

variable {α β : Type}

/-- The keys strictly increase, so each occurs once. -/
def Sorted (xs : List (String × α)) : Prop :=
  xs.Pairwise fun a b => a.1 < b.1

def find? (k : String) : List (String × α) → Option α
  | [] => none
  | (k', a) :: xs => if k = k' then some a else find? k xs

/-- Puts `a` under `k`, in place of what stood there. -/
def insert (k : String) (a : α) : List (String × α) → List (String × α)
  | [] => [(k, a)]
  | (k', b) :: xs =>
    if k < k' then (k, a) :: (k', b) :: xs
    else if k = k' then (k, a) :: xs
    else (k', b) :: insert k a xs

/-- Entries in any order, the last one under a key winning. -/
def ofList (xs : List (String × α)) : List (String × α) :=
  xs.foldl (fun acc e => insert e.1 e.2 acc) []

def keys (xs : List (String × α)) : List String := xs.map Prod.fst

@[simp] theorem find?_nil (k : String) : find? k ([] : List (String × α)) = none := rfl

theorem find?_cons (k k' : String) (a : α) (xs : List (String × α)) :
    find? k ((k', a) :: xs) = if k = k' then some a else find? k xs := rfl

@[simp] theorem find?_insert_self (k : String) (a : α) (xs : List (String × α)) :
    find? k (insert k a xs) = some a := by
  induction xs with
  | nil => simp [insert, find?]
  | cons e xs ih =>
    obtain ⟨k', b⟩ := e
    simp only [insert]
    split
    · simp [find?]
    · split
      · simp [find?]
      · rename_i h
        simp [find?, h, ih]

theorem find?_insert_of_ne {k k' : String} (a : α) (h : k' ≠ k) (xs : List (String × α)) :
    find? k' (insert k a xs) = find? k' xs := by
  induction xs with
  | nil => simp [insert, find?, h]
  | cons e xs ih =>
    obtain ⟨k'', b⟩ := e
    simp only [insert]
    split
    · simp [find?, h]
    · split
      · rename_i hk
        subst hk
        simp [find?, h]
      · simp [find?, ih]

/-! ### Order -/

theorem mem_insert {k : String} {a : α} {e : String × α} {xs : List (String × α)}
    (h : e ∈ insert k a xs) : e = (k, a) ∨ e ∈ xs := by
  induction xs with
  | nil => simpa [insert] using h
  | cons x xs ih =>
    obtain ⟨k', b⟩ := x
    simp only [insert] at h
    split at h
    · simpa using h
    · split at h
      · rcases List.mem_cons.1 h with h | h
        · exact .inl h
        · exact .inr (.tail _ h)
      · rcases List.mem_cons.1 h with h | h
        · exact .inr (h ▸ .head _)
        · exact (ih h).imp_right (.tail _)

theorem Sorted.insert {xs : List (String × α)} (h : Sorted xs) (k : String) (a : α) :
    Sorted (insert k a xs) := by
  induction xs with
  | nil => exact List.pairwise_singleton _ _
  | cons e xs ih =>
    obtain ⟨k', b⟩ := e
    have hx := List.pairwise_cons.1 h
    simp only [Keyed.insert]
    split
    · rename_i hlt
      refine List.pairwise_cons.2 ⟨fun e he => ?_, h⟩
      rcases List.mem_cons.1 he with rfl | he
      · exact hlt
      · exact String.lt_trans hlt (hx.1 e he)
    · split
      · rename_i hk
        subst hk
        exact List.pairwise_cons.2 ⟨hx.1, hx.2⟩
      · rename_i hlt hk
        refine List.pairwise_cons.2 ⟨fun e he => ?_, ih hx.2⟩
        rcases mem_insert he with rfl | he
        · exact Std.lt_of_le_of_ne (String.not_lt.1 hlt) (Ne.symm hk)
        · exact hx.1 e he

theorem Sorted.nil : Sorted ([] : List (String × α)) := List.Pairwise.nil

end RowQuery.Keyed
