import RowQuery.Keyed

/-!
# Relation trees

The relations to load along with an entity, each with the relations to load below it. A tree stands
for the set of its paths, and the merge is the union of these sets: a bare mark never removes what
is declared below it.
-/

namespace RowQuery

inductive RelationNode where
  /-- The relation is loaded, and nothing below it. -/
  | load
  | nested (tree : List (String × RelationNode))
deriving Repr, Inhabited

/-- Declarations in the order of their relations. -/
abbrev RelationTree := List (String × RelationNode)

/-! ### Merging -/

mutual

/-- What stands at a place where `new` is declared over what was there. -/
def RelationNode.declareOver : (new : RelationNode) → (old : Option RelationNode) → RelationNode
  | .nested source, some (.nested target) => .nested (RelationTree.mergeInto source target)
  | .load, some (.nested target) => .nested target
  | new, _ => new

def RelationTree.mergeInto : (source target : List (String × RelationNode)) →
    List (String × RelationNode)
  | [], target => target
  | (k, new) :: source, target =>
    RelationTree.mergeInto source
      (Keyed.insert k (new.declareOver (Keyed.find? k target)) target)

end

namespace RelationTree

def merge (target source : RelationTree) : RelationTree := mergeInto source target

@[simp] theorem merge_nil (t : RelationTree) : merge t [] = t := by
  simp [merge, mergeInto]

theorem merge_cons (t : RelationTree) (k : String) (n : RelationNode) (s : RelationTree) :
    merge t ((k, n) :: s) = merge (Keyed.insert k (n.declareOver (Keyed.find? k t)) t) s := by
  simp [merge, mergeInto]

/-- Whether a chain of relations is declared; the empty chain always is. -/
def containsPath : List String → RelationTree → Bool
  | [], _ => true
  | k :: ks, t =>
    match Keyed.find? k t with
    | none => false
    | some .load => ks.isEmpty
    | some (.nested t) => containsPath ks t

end RelationTree

/-! ### Paths -/

mutual

/-- The chains declared at and below a relation that is reached by `path`. -/
def RelationNode.pathsBelow (path : List String) : RelationNode → List (List String)
  | .load => []
  | .nested t => RelationTree.pathsFrom path t

def RelationTree.pathsFrom (path : List String) :
    List (String × RelationNode) → List (List String)
  | [] => []
  | (k, n) :: t =>
    (path ++ [k]) :: n.pathsBelow (path ++ [k]) ++ RelationTree.pathsFrom path t

end

/-- Every declared chain of relations, each before those that go on from it. -/
def RelationTree.paths (t : RelationTree) : List (List String) := pathsFrom [] t

/-! ### Equality -/

mutual

def RelationNode.decEq : (a b : RelationNode) → Decidable (a = b)
  | .load, .load => .isTrue rfl
  | .nested a, .nested b => match RelationTree.decEqEntries a b with
    | .isTrue h => .isTrue (h ▸ rfl)
    | .isFalse h => .isFalse (by simp [h])
  | .load, .nested _ | .nested _, .load => .isFalse nofun

def RelationTree.decEqEntries : (a b : List (String × RelationNode)) → Decidable (a = b)
  | [], [] => .isTrue rfl
  | [], _ :: _ | _ :: _, [] => .isFalse nofun
  | (k, a) :: as, (l, b) :: bs =>
    if hk : k = l then
      match RelationNode.decEq a b, RelationTree.decEqEntries as bs with
      | .isTrue h, .isTrue hs => .isTrue (hk ▸ h ▸ hs ▸ rfl)
      | .isFalse h, _ => .isFalse (by simp [h])
      | _, .isFalse h => .isFalse (by simp [h])
    else .isFalse (by simp [hk])

end

instance : DecidableEq RelationNode := RelationNode.decEq

end RowQuery
