import RowQuery.Keyed
import RowQuery.Operator

/-!
# Predicate trees

A predicate tree is a conjunction of conditions under the fields they test. Under a relation stands
the tree of the related entity. A predicate is one tree, or a list of alternative trees.

The merge descends into nested trees on both sides and lets the later condition replace the earlier
one everywhere else.
-/

namespace RowQuery

inductive Condition where
  /-- The field has this value. -/
  | value (v : Value)
  | op (o : Operator)
  /-- The field is a relation, and the related row meets the tree. -/
  | nested (tree : List (String × Condition))
deriving Repr, Inhabited

/-- Conditions in the order of their fields. -/
abbrev PredicateTree := List (String × Condition)

namespace Condition

def nested? : Condition → Option PredicateTree
  | nested t => some t
  | _ => none

def op? : Condition → Option Operator
  | op o => some o
  | _ => none

end Condition

/-! ### Merging -/

mutual

/-- What stands at a place where `new` is written over what was there. -/
def Condition.writeOver : (new : Condition) → (old : Option Condition) → Condition
  | .nested source, some (.nested target) => .nested (PredicateTree.mergeInto source target)
  | new, _ => new

def PredicateTree.mergeInto : (source target : List (String × Condition)) →
    List (String × Condition)
  | [], target => target
  | (k, new) :: source, target =>
    PredicateTree.mergeInto source
      (Keyed.insert k (new.writeOver (Keyed.find? k target)) target)

end

namespace PredicateTree

def merge (target source : PredicateTree) : PredicateTree := mergeInto source target

@[simp] theorem merge_nil (t : PredicateTree) : merge t [] = t := by
  simp [merge, mergeInto]

theorem merge_cons (t : PredicateTree) (k : String) (c : Condition) (s : PredicateTree) :
    merge t ((k, c) :: s) = merge (Keyed.insert k (c.writeOver (Keyed.find? k t)) t) s := by
  simp [merge, mergeInto]

/-- The condition at the end of a chain of keys. -/
def find? : List String → PredicateTree → Option Condition
  | [], _ => none
  | [k], t => Keyed.find? k t
  | k :: ks, t => ((Keyed.find? k t).bind Condition.nested?).bind (find? ks)

end PredicateTree

/-! ### Equality -/

mutual

/-- Equality with floats taken at their numeric value. -/
def Condition.same : Condition → Condition → Bool
  | .value a, .value b => a.same b
  | .op a, .op b => a.same b
  | .nested a, .nested b => PredicateTree.same a b
  | _, _ => false

def PredicateTree.same : List (String × Condition) → List (String × Condition) → Bool
  | [], [] => true
  | (k, a) :: as, (l, b) :: bs => k == l && a.same b && PredicateTree.same as bs
  | _, _ => false

end

/-! ### Predicates -/

inductive Predicate where
  | all (tree : PredicateTree)
  | any (branches : List PredicateTree)
deriving Repr, Inhabited

namespace Predicate

def isEmpty : Predicate → Bool
  | all t => t.isEmpty
  | any bs => bs.isEmpty

/-- The trees of which one has to hold. -/
def alternatives : Predicate → List PredicateTree
  | all t => [t]
  | any bs => bs

end Predicate

end RowQuery
