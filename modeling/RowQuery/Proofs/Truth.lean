/-!
# Truth values

The logic of tests that may have nothing to compare: a test holds, fails or stays unknown. A
conjunction holds if all of its parts hold, and what is unknown stays so under negation. Only a test
that holds selects a row.
-/

namespace RowQuery

inductive Truth where
  | holds
  | fails
  | unknown
deriving DecidableEq, Repr

namespace Truth

def ofBool (b : Bool) : Truth := if b then holds else fails

def not : Truth → Truth
  | holds => fails
  | fails => holds
  | unknown => unknown

def and : Truth → Truth → Truth
  | fails, _ => fails
  | holds, t => t
  | unknown, fails => fails
  | unknown, _ => unknown

def or : Truth → Truth → Truth
  | holds, _ => holds
  | fails, t => t
  | unknown, holds => holds
  | unknown, _ => unknown

/-- The truth of a test or of its negation. -/
def signed (t : Truth) (negated : Bool) : Truth := if negated then t.not else t

def all (ts : List Truth) : Truth := ts.foldr and holds

def any (ts : List Truth) : Truth := ts.foldr or fails

@[simp] theorem ofBool_true : ofBool true = holds := rfl

@[simp] theorem ofBool_false : ofBool false = fails := rfl

@[simp] theorem signed_false (t : Truth) : t.signed false = t := rfl

@[simp] theorem signed_true (t : Truth) : t.signed true = t.not := rfl

@[simp] theorem all_nil : all [] = holds := rfl

@[simp] theorem all_cons (t : Truth) (ts : List Truth) : all (t :: ts) = t.and (all ts) := rfl

@[simp] theorem any_nil : any [] = fails := rfl

@[simp] theorem any_cons (t : Truth) (ts : List Truth) : any (t :: ts) = t.or (any ts) := rfl

@[simp] theorem not_not (t : Truth) : t.not.not = t := by cases t <;> rfl

theorem signed_not (t : Truth) (negated : Bool) : t.not.signed negated = t.signed !negated := by
  cases negated
  · rfl
  · exact not_not t

@[simp] theorem not_ofBool (b : Bool) : (ofBool b).not = ofBool (!b) := by cases b <;> rfl

@[simp] theorem ofBool_eq_holds {b : Bool} : ofBool b = holds ↔ b = true := by
  cases b <;> simp [ofBool]

@[simp] theorem ofBool_eq_fails {b : Bool} : ofBool b = fails ↔ b = false := by
  cases b <;> simp [ofBool]

@[simp] theorem not_eq_holds {t : Truth} : t.not = holds ↔ t = fails := by
  cases t <;> simp [not]

@[simp] theorem and_eq_holds {s t : Truth} : s.and t = holds ↔ s = holds ∧ t = holds := by
  cases s <;> cases t <;> simp [and]

@[simp] theorem or_eq_holds {s t : Truth} : s.or t = holds ↔ s = holds ∨ t = holds := by
  cases s <;> cases t <;> simp [or]

theorem all_eq_holds {ts : List Truth} : all ts = holds ↔ ∀ t ∈ ts, t = holds := by
  induction ts with
  | nil => simp
  | cons t ts ih => simp [ih]

theorem any_eq_holds {ts : List Truth} : any ts = holds ↔ holds ∈ ts := by
  induction ts with
  | nil => simp
  | cons t ts ih => rw [any_cons, or_eq_holds, ih, List.mem_cons, eq_comm]

end Truth

end RowQuery
