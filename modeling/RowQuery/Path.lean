import RowQuery.Schema
import RowQuery.Tree.Predicate
import RowQuery.Tree.Relation

/-!
# Field paths

A path names a field by the relations that lead to it: segments with dots between them. Resolving a
path walks it through a schema, either to a field at its end or, where every segment is a relation,
to an entity.
-/

namespace RowQuery

/-- A segment has at least one character and no dot. -/
def IsSegment (s : String) : Prop := s ≠ "" ∧ '.' ∉ s.toList

instance (s : String) : Decidable (IsSegment s) := by unfold IsSegment; infer_instance

structure FieldPath where
  segments : List String
  ne_nil : segments ≠ []
  isSegment : ∀ s ∈ segments, IsSegment s
deriving DecidableEq, Repr

/-- The pieces of a text between its dots. -/
def dotPieces (s : String) : List String := (s.toList.splitOn '.').map String.ofList

namespace FieldPath

/-- The text of a chain of segments. -/
def joinDots (segments : List String) : String := ".".intercalate segments

def ofSegments? (segments : List String) : Option FieldPath :=
  if h : segments ≠ [] ∧ ∀ s ∈ segments, IsSegment s then some ⟨segments, h.1, h.2⟩ else none

def parse (raw : String) : Except QueryError FieldPath :=
  match ofSegments? (dotPieces raw) with
  | some p => .ok p
  | none => .error (.invalidPath raw)

/-- The path through several hops, each of which may be a path itself. -/
def ofHops (hops : List String) : Except QueryError FieldPath := do
  let paths ← hops.mapM parse
  match ofSegments? (paths.flatMap segments) with
  | some p => .ok p
  | none => .error (.invalidPath "")

variable (p : FieldPath)

def text : String := joinDots p.segments

def isNested : Bool := 1 < p.segments.length

/-- The last segment. -/
def leaf : String := p.segments.getLast p.ne_nil

/-- The segments before the last. -/
def hops : List String := p.segments.dropLast

/-- The path without its last segment, unless that is its only one. -/
def relationPrefix? : Option FieldPath := ofSegments? p.hops

/-! ### Resolution -/

/-- The shape that one hop of the path leads to. -/
def step (σ : Schema) (s : Shape) (hop : String) : Except QueryError Shape := do
  let field ← s.requireField hop
  match field.relation? with
  | none => throw (.notARelation s.name hop p.text)
  | some r => σ.shape r.target

/-- Where the path ends: a field that is no relation, and the shape it belongs to. -/
def resolve (σ : Schema) (root : Shape) : Except QueryError (Shape × Field) := do
  let shape ← p.hops.foldlM (p.step σ) root
  let field ← shape.requireField p.leaf
  refuseIf field.isRelation (.relationLeaf shape.name p.leaf p.text)
  return (shape, field)

/-- The shape at the end of a path of relations only. -/
def resolveRelations (σ : Schema) (root : Shape) : Except QueryError Shape :=
  p.segments.foldlM (p.step σ) root

variable {p}

theorem registered_of_step {σ : Schema} {s t : Shape} {hop : String} (h : p.step σ s hop = .ok t) :
    σ.shape? t.name = some t := by
  obtain ⟨f, _, h⟩ := bind_eq_ok.1 h
  cases hr : f.relation? with
  | none => simp only [hr] at h; cases h
  | some r => simp only [hr] at h; exact Schema.registered_of_shape h

/-- Hops lead from registered shapes to registered shapes. -/
theorem registered_of_foldlM_step {σ : Schema} {s t : Shape} {hops : List String}
    (hs : σ.shape? s.name = some s) (h : hops.foldlM (p.step σ) s = .ok t) :
    σ.shape? t.name = some t := by
  induction hops generalizing s with
  | nil => cases h; exact hs
  | cons hop hops ih =>
    rw [List.foldlM_cons] at h
    obtain ⟨s', hstep, h⟩ := bind_eq_ok.1 h
    exact ih (registered_of_step hstep) h

end FieldPath

/-! ### Trees of one path -/

/-- The tree that has one condition, at the end of a chain of keys. -/
def PredicateTree.atPath : List String → Condition → PredicateTree
  | [], _ => []
  | [k], c => [(k, c)]
  | k :: ks, c => [(k, .nested (atPath ks c))]

/-- The tree that declares a chain of relations, with `deepest` at its last one. -/
def RelationTree.atPath : List String → RelationNode → RelationTree
  | [], _ => []
  | [k], n => [(k, n)]
  | k :: ks, n => [(k, .nested (atPath ks n))]

namespace FieldPath

variable (p : FieldPath)

def predicate (c : Condition) : PredicateTree := .atPath p.segments c

def declarationWith (deepest : RelationNode) : RelationTree := .atPath p.segments deepest

def declaration : RelationTree := p.declarationWith .load

end FieldPath

end RowQuery
