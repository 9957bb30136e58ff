import RowQuery.Value

/-!
# Pieces of a statement

A statement is put together from fixed text, names and operands, so that neither a name nor an
operand can ever be read as text of the statement. Names are quoted where they are written, and an
operand is written as a placeholder that refers to it by its place among the operands.
-/

namespace RowQuery.Sql

inductive Piece where
  | text (s : String)
  | name (s : String)
  | operand (v : Value)
deriving Repr

abbrev Fragment := List Piece

def Piece.operand? : Piece → Option Value
  | operand v => some v
  | _ => none

/-- A name in double quotes; a quote in it is written twice. -/
def quoteName (s : String) : String :=
  String.ofList ('"' :: s.toList.flatMap (fun c => if c = '"' then ['"', '"'] else [c]) ++ ['"'])

namespace Fragment

/-- The operands, in the order of their placeholders. -/
def operands (f : Fragment) : List Value := f.filterMap Piece.operand?

/-- The text of a statement that goes on after `n` operands. -/
def textAfter (n : Nat) : Fragment → String
  | [] => ""
  | .text s :: f => s ++ textAfter n f
  | .name s :: f => quoteName s ++ textAfter n f
  | .operand _ :: f => "$" ++ toString (n + 1) ++ textAfter (n + 1) f

def text (f : Fragment) : String := textAfter 0 f

/-- Fragments with a text between them. -/
def separated (separator : String) (fs : List Fragment) : Fragment :=
  [Piece.text separator].intercalate fs

variable (f g : Fragment)

@[simp] theorem operands_nil : operands [] = [] := rfl

@[simp] theorem operands_append : operands (f ++ g) = operands f ++ operands g := by
  simp [operands]

@[simp] theorem operands_text (s : String) : operands (.text s :: f) = operands f := rfl

@[simp] theorem operands_name (s : String) : operands (.name s :: f) = operands f := rfl

@[simp] theorem operands_operand (v : Value) : operands (.operand v :: f) = v :: operands f := rfl

@[simp] theorem separated_nil (separator : String) : separated separator [] = [] := rfl

@[simp] theorem separated_singleton (separator : String) : separated separator [f] = f := by
  simp [separated]

theorem separated_cons_cons (separator : String) (fs : List Fragment) :
    separated separator (f :: g :: fs) = f ++ .text separator :: separated separator (g :: fs) := by
  simp [separated, List.intercalate_cons_cons]

theorem operands_separated (separator : String) :
    (fs : List Fragment) → operands (separated separator fs) = fs.flatMap operands
  | [] => rfl
  | [f] => by simp
  | f :: g :: fs => by
    rw [separated_cons_cons, operands_append, operands_text, operands_separated]
    rfl

end Fragment

end RowQuery.Sql
