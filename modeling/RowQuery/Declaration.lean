import RowQuery.Declaration.Literal
import RowQuery.Schema
import RowQuery.Text.Capital

/-!
# Declared entities

The shape of an entity as it is read off an annotated struct. Annotations on the struct name the
entity, its table and its primary key; annotations on a field leave it out or make it an array or a
relation. What is not said follows from the names.
-/

namespace RowQuery

/-- One item of an annotation. -/
inductive Annotation where
  /-- A bare name. -/
  | flag (name : String)
  /-- A name with a value; there is none if the value is no string literal. -/
  | assign (name : String) (value : Option String)
  /-- A name with something in parentheses. -/
  | call (name : String)
deriving DecidableEq, Repr

def Annotation.name : Annotation → String
  | flag name => name
  | assign name _ => name
  | call name => name

/-- A name with an expression as its value. -/
def Annotation.ofExpression (name source : String) : Annotation :=
  assign name (Literal.text? source)

/-- What kind of type is declared. -/
inductive TypeForm where
  | struct
  | tuple
  | unit
  | enum
  | union
deriving DecidableEq, Repr

structure FieldDeclaration where
  ident : String
  annotations : List Annotation
deriving DecidableEq, Repr

structure Declaration where
  ident : String
  form : TypeForm
  annotations : List Annotation
  fields : List FieldDeclaration
deriving DecidableEq, Repr

inductive DeclarationFault where
  | noStruct
  | noNamedFields
  | unknownOption
  | unknownFieldOption
  | noStringLiteral (name : String)
  | oneAndMany
  /-- Options of a relation on a field that is none. -/
  | noRelation
deriving DecidableEq, Repr

def DeclarationFault.message : DeclarationFault → String
  | noStruct => "Entity only supports structs"
  | noNamedFields => "Entity only supports structs with named fields"
  | unknownOption => "expected `name`, `table` or `primary_key`"
  | unknownFieldOption =>
    "expected `skip`, `array`, `relation = \"..\"`, `one`, `many`, `local = \"..\"` or " ++
      "`foreign = \"..\"`"
  | noStringLiteral name => "`" ++ name ++ "` must be a string literal"
  | oneAndMany => "a relation is either `one` or `many`"
  | noRelation => "`one`, `many`, `local` and `foreign` need `relation = \"Target\"`"

/-- The value of an annotation, which a bare name or a name with parentheses does not have. -/
def Annotation.text? : Annotation → Except DeclarationFault (Option String)
  | assign _ (some value) => .ok (some value)
  | assign name none => .error (.noStringLiteral name)
  | flag _ | call _ => .ok none

/-! ### Structs -/

/-- What the annotations of a struct say; a later one of the same name wins. -/
structure EntityOptions where
  name : Option String
  table : Option String
  primaryKey : Option String
deriving DecidableEq, Repr

namespace EntityOptions

def none : EntityOptions := ⟨.none, .none, .none⟩

def add (o : EntityOptions) (a : Annotation) : Except DeclarationFault EntityOptions :=
  match a.name with
  | "name" => do return { o with name := ← a.text? }
  | "table" => do return { o with table := ← a.text? }
  | "primary_key" => do return { o with primaryKey := ← a.text? }
  | _ => .error .unknownOption

end EntityOptions

/-! ### Fields -/

/-- What the annotations of a field say; a later value of the same name wins. -/
structure FieldOptions where
  skip : Bool
  array : Bool
  one : Bool
  many : Bool
  target : Option String
  localKey : Option String
  foreignKey : Option String
deriving DecidableEq, Repr

namespace FieldOptions

def none : FieldOptions := ⟨false, false, false, false, .none, .none, .none⟩

def add (o : FieldOptions) (a : Annotation) : Except DeclarationFault FieldOptions :=
  match a with
  | .flag "skip" => .ok { o with skip := true }
  | .flag "array" => .ok { o with array := true }
  | .flag "one" => .ok { o with one := true }
  | .flag "many" => .ok { o with many := true }
  | .assign "relation" _ => do return { o with target := ← a.text? }
  | .assign "local" _ => do return { o with localKey := ← a.text? }
  | .assign "foreign" _ => do return { o with foreignKey := ← a.text? }
  | _ => .error .unknownFieldOption

/-- The kind of the field that goes into column `column` of the entity `s`. A relation to many rows
is found by the entity's primary key and its name, one to a single row by the name of the field. -/
def kind (o : FieldOptions) (s : Shape) (column : String) : Except DeclarationFault FieldKind :=
  if o.many && o.one then .error .oneAndMany
  else match o.target with
    | some target => .ok <| .relation <|
      if o.many then
        ⟨target, .many, o.localKey.getD s.primaryKey,
          o.foreignKey.getD (Text.snakeCase s.name ++ "_id")⟩
      else ⟨target, .one, o.localKey.getD (column ++ "_id"), o.foreignKey.getD "id"⟩
    | .none =>
      if o.many || o.one || o.localKey.isSome || o.foreignKey.isSome then .error .noRelation
      else .ok (if o.array then .array else .scalar)

end FieldOptions

namespace FieldDeclaration

/-- The name of the field without the mark of a raw identifier. -/
def column (f : FieldDeclaration) : String :=
  match f.ident.toList with
  | 'r' :: '#' :: cs => String.ofList cs
  | _ => f.ident

/-- The field as the entity `s` has it, unless it is left out. -/
def field? (f : FieldDeclaration) (s : Shape) : Except DeclarationFault (Option Field) := do
  let o ← f.annotations.foldlM FieldOptions.add .none
  if o.skip then return none
  return some ⟨f.column, ← o.kind s f.column⟩

end FieldDeclaration

/-! ### Entities -/

namespace Declaration

variable (d : Declaration)

def ensureNamedFields : Except DeclarationFault Unit :=
  match d.form with
  | .struct => .ok ()
  | .tuple | .unit => .error .noNamedFields
  | .enum | .union => .error .noStruct

/-- The entity without its fields. The table is named for many of the entity. -/
def header : Except DeclarationFault Shape := do
  let o ← d.annotations.foldlM EntityOptions.add .none
  let name := o.name.getD d.ident
  return (Shape.new name (o.table.getD (Text.snakeCase name ++ "s"))).withPrimaryKey
    (o.primaryKey.getD "id")

/-- Adds the fields to `s` in the order of their declarations. -/
def addFields : List FieldDeclaration → Shape → Except DeclarationFault Shape
  | [], s => .ok s
  | f :: fs, s => do
    match ← f.field? s with
    | some field => addFields fs (s.withField field)
    | none => addFields fs s

/-- The shape that is declared. -/
def shape : Except DeclarationFault Shape := do
  d.ensureNamedFields
  addFields d.fields (← d.header)

end Declaration

end RowQuery
