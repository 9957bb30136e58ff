import RowQuery.Error
import RowQuery.Keyed

/-!
# Schemas

The shape of an entity names its table and its fields; a relation field says which rows of another
entity belong to a row. A schema holds shapes under their names.
-/

namespace RowQuery

inductive Cardinality where
  | one
  | many
deriving DecidableEq, Repr

/-- The related rows are those whose `foreign` field equals the owner's `localKey`. -/
structure Relation where
  target : String
  cardinality : Cardinality
  localKey : String
  foreignKey : String
deriving DecidableEq, Repr

inductive FieldKind where
  | scalar
  | array
  | relation (r : Relation)
deriving DecidableEq, Repr

structure Field where
  name : String
  kind : FieldKind
deriving DecidableEq, Repr

namespace Field

def relation? (f : Field) : Option Relation :=
  match f.kind with
  | .relation r => some r
  | _ => none

def isRelation (f : Field) : Bool := f.relation?.isSome

end Field

structure Shape where
  name : String
  /-- The table of a relational store, the collection of a document store. -/
  table : String
  primaryKey : String
  fields : List Field
deriving DecidableEq, Repr

namespace Shape

/-- A shape without fields, with `id` as its primary key. -/
def new (name table : String) : Shape := ⟨name, table, "id", []⟩

def withPrimaryKey (s : Shape) (key : String) : Shape := { s with primaryKey := key }

/-- Adds a field at the end, in place of one of the same name. -/
def withField (s : Shape) (f : Field) : Shape :=
  { s with fields := s.fields.filter (·.name != f.name) ++ [f] }

def field? (s : Shape) (name : String) : Option Field := s.fields.find? (·.name == name)

def requireField (s : Shape) (name : String) : Except QueryError Field :=
  match s.field? name with
  | some f => .ok f
  | none => .error (.unknownField s.name name)

def requireFields (s : Shape) : List String → Except QueryError Unit
  | [] => .ok ()
  | name :: names => do
    let _ ← s.requireField name
    s.requireFields names

theorem requireField_eq_ok {s : Shape} {name : String} {f : Field} :
    s.requireField name = .ok f ↔ s.field? name = some f := by
  unfold requireField
  cases s.field? name <;> simp

theorem requireFields_eq_ok {s : Shape} {names : List String} {u : Unit} :
    s.requireFields names = .ok u ↔ ∀ name ∈ names, (s.field? name).isSome := by
  induction names with
  | nil => simp [requireFields]
  | cons name names ih =>
    simp only [requireFields, bind_eq_ok, requireField_eq_ok, ih, List.forall_mem_cons,
      Option.isSome_iff_exists, exists_and_right]

end Shape

/-- Shapes in the order of their names. -/
structure Schema where
  shapes : List (String × Shape)
  sorted : Keyed.Sorted shapes
  isNamed : ∀ e ∈ shapes, e.2.name = e.1

namespace Schema

def empty : Schema := ⟨[], .nil, nofun⟩

/-- Registers a shape, in place of one of the same name. -/
def withShape (σ : Schema) (s : Shape) : Schema where
  shapes := Keyed.insert s.name s σ.shapes
  sorted := σ.sorted.insert s.name s
  isNamed e he := by
    rcases Keyed.mem_insert he with rfl | he
    · rfl
    · exact σ.isNamed e he

def ofList (shapes : List Shape) : Schema := shapes.foldl withShape empty

def shape? (σ : Schema) (entity : String) : Option Shape := Keyed.find? entity σ.shapes

def shape (σ : Schema) (entity : String) : Except QueryError Shape :=
  match σ.shape? entity with
  | some s => .ok s
  | none => .error (.unknownEntity entity)

/-- The shape at the other end of a relation field. -/
def related? (σ : Schema) (s : Shape) (field : String) : Option Shape :=
  ((s.field? field).bind Field.relation?).bind fun r => σ.shape? r.target

/-- The first relation target, in the order of shapes and fields, that is not registered. -/
def dangling? (σ : Schema) : Option String :=
  σ.shapes.findSome? fun e => e.2.fields.findSome? fun f =>
    f.relation?.bind fun r => if (σ.shape? r.target).isSome then none else some r.target

/-- The schema itself if every relation leads to a registered shape. -/
def validate (σ : Schema) : Except QueryError Schema :=
  match σ.dangling? with
  | none => .ok σ
  | some target => .error (.unknownEntity target)

theorem name_of_shape? {σ : Schema} {entity : String} {s : Shape} (h : σ.shape? entity = some s) :
    s.name = entity := by
  obtain ⟨shapes, _, isNamed⟩ := σ
  simp only [shape?] at h
  induction shapes with
  | nil => simp at h
  | cons e es ih =>
    obtain ⟨k, s'⟩ := e
    rw [Keyed.find?_cons] at h
    split at h
    · rename_i hk
      cases h
      rw [hk]
      exact isNamed _ (.head _)
    · rename_i hs _
      exact ih (List.pairwise_cons.1 hs).2 (fun e he => isNamed e (.tail _ he)) h

/-- A registered shape is found again under its own name. -/
theorem shape?_name {σ : Schema} {entity : String} {s : Shape} (h : σ.shape? entity = some s) :
    σ.shape? s.name = some s := by
  rw [name_of_shape? h, h]

theorem registered_of_shape {σ : Schema} {entity : String} {s : Shape}
    (h : σ.shape entity = .ok s) : σ.shape? s.name = some s := by
  unfold shape at h
  split at h
  · rename_i hs
    cases h
    exact shape?_name hs
  · cases h

end Schema

end RowQuery
