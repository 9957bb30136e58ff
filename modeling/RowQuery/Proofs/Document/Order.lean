import RowQuery.Document.Store
import RowQuery.Proofs.Double.Nearest

/-!
# The order of documents

Values are put in order by their sort, then by their number, then by their text
(`compareValues_eq_lex`), and documents by the values under their sort keys, each up or down. So any
list of sort keys makes a total preorder of all documents (`transCmp_compareBy`), in which a key that
comes again has no part (`compareBy_map_eraseDups`).
-/

namespace RowQuery

/-! ### Numbers -/

namespace Json.Number

theorem isFinite_toDouble (n : Number) : n.toDouble.isFinite = true := by
  cases n with
  | int n h => exact Double.isFinite_ofInt (by omega)
  | float x h => exact h

/-- Any two numbers of documents can be compared. -/
theorem compare?_toDouble (m n : Number) :
    m.toDouble.compare? n.toDouble = some (compare m.toDouble.key n.toDouble.key) := by
  have hnan (n : Number) : n.toDouble.isNaN = false := by
    have hfinite := isFinite_toDouble n
    simp only [Double.isFinite, Double.isNaN, decide_eq_true_eq, decide_eq_false_iff_not]
      at hfinite ⊢
    omega
  rw [Double.compare?, hnan, hnan]
  rfl

end Json.Number

namespace Document

/-! ### Values -/

/-- The place of a number or a truth value among its own sort. -/
def ordinal : Json → Int
  | .bool b => if b then 1 else 0
  | .num n => n.toDouble.key
  | _ => 0

/-- The text of a string. -/
def wording : Json → String
  | .str s => s
  | _ => ""

/-- Values of one sort are told apart by their number or their text, others by their sort. -/
theorem compareValues_eq_lex :
    compareValues = compareLex (compareOn rank) (compareLex (compareOn ordinal)
      (compareOn wording)) := by
  funext a b
  cases a <;> cases b <;> try rfl
  · rename_i a b
    cases a <;> cases b <;> rfl
  · rename_i m n
    simp only [compareValues, compareWithin?, Json.Number.compare?_toDouble]
    exact Ordering.then_eq.symm

instance : Std.TransCmp compareValues := compareValues_eq_lex ▸ inferInstance

/-! ### Sort keys -/

/-- The order of two documents by one sort key. -/
def compareAt (o : OrderBy) (a b : Json) : Ordering :=
  match o.direction with
  | .asc => compareValues (fieldOf a o.field) (fieldOf b o.field)
  | .desc => (compareValues (fieldOf a o.field) (fieldOf b o.field)).swap

theorem compareBy_cons (o : OrderBy) (order : List OrderBy) :
    compareBy (o :: order) = compareLex (compareAt o) (compareBy order) := rfl

/-- A sort key orders documents by its values, up or down. -/
instance (o : OrderBy) : Std.TransCmp (compareAt o) := by
  obtain ⟨field, direction⟩ := o
  cases direction with
  | asc =>
    have hvalues : Std.TransCmp compareValues := inferInstance
    exact {
      eq_swap := hvalues.eq_swap
      isLE_trans := hvalues.isLE_trans }
  | desc =>
    have hswap (a b : Json) : compareAt ⟨field, .desc⟩ a b =
        compareValues (fieldOf b field) (fieldOf a field) := Std.OrientedCmp.eq_swap.symm
    exact {
      eq_swap := by
        intro a b
        rw [hswap, hswap]
        exact Std.OrientedCmp.eq_swap
      isLE_trans := by
        intro a b c hab hbc
        rw [hswap] at *
        exact Std.TransCmp.isLE_trans hbc hab }

/-- Any sort keys put all documents in an order, up to ties. -/
instance transCmp_compareBy : (order : List OrderBy) → Std.TransCmp (compareBy order)
  | [] => { eq_swap := rfl, isLE_trans := fun _ _ => rfl }
  | o :: order => by
    have := transCmp_compareBy order
    rw [compareBy_cons]
    infer_instance

/-! ### Keys that come again -/

section

variable {α : Type} [BEq α] [LawfulBEq α] (g : α → OrderBy) {a : α}

/-- Keys that leave two documents tied have no part in comparing them. -/
theorem compareBy_map_filter_of_tie {x y : Json} (h : compareAt (g a) x y = .eq) (l : List α) :
    compareBy ((l.filter (!· == a)).map g) x y = compareBy (l.map g) x y := by
  induction l with
  | nil => rfl
  | cons b l ih =>
    by_cases hb : b = a
    · subst hb
      rw [List.filter_cons_of_neg (by simp), ih, List.map_cons, compareBy_cons, compareLex, h]
      rfl
    · rw [List.filter_cons_of_pos (by simpa using hb), List.map_cons, List.map_cons,
        compareBy_cons, compareBy_cons, compareLex, compareLex, ih]

/-- A key that comes a second time has nothing left to decide. -/
theorem compareBy_map_eraseDups : (l : List α) →
    compareBy (l.eraseDups.map g) = compareBy (l.map g)
  | [] => rfl
  | a :: l => by
    have ih := compareBy_map_eraseDups (l.filter (!· == a))
    funext x y
    rw [List.eraseDups_cons, List.map_cons, List.map_cons, compareBy_cons, compareBy_cons, ih,
      compareLex, compareLex]
    cases h : compareAt (g a) x y with
    | eq => exact compareBy_map_filter_of_tie g h l
    | lt => rfl
    | gt => rfl
termination_by l => l.length
decreasing_by exact Nat.lt_succ_of_le (List.length_filter_le _ _)

end

end Document

end RowQuery
