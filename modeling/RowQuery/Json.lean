import RowQuery.Double.Rounding
import RowQuery.Keyed

/-!
# JSON documents

A number is a whole number of 64 bits, signed or unsigned, or a finite binary64. The members of an
object stand in the order of their names, each name once. `Json.same` is the equality of documents
that takes numbers of one sort at their numeric value.
-/

namespace RowQuery

namespace Json

inductive Number where
  | int (n : Int) (inRange : -0x8000000000000000 ≤ n ∧ n < 0x10000000000000000)
  | float (x : Double) (finite : x.isFinite = true)
deriving DecidableEq, Repr

namespace Number

def ofNat? (n : Nat) : Option Number :=
  if h : n < 0x10000000000000000 then some (.int n (by omega)) else none

def ofUInt64 (n : UInt64) : Number :=
  .int n.toNat (by have := n.toNat_lt; omega)

def ofInt64 (n : Int64) : Number :=
  .int n.toInt (by have := n.toInt_lt; have := n.le_toInt; omega)

def toDouble : Number → Double
  | .int n _ => .ofInt n
  | .float x _ => x

/-- Equality of two numbers of one sort; a whole number and a float are never equal here. -/
def same : Number → Number → Bool
  | .int m _, .int n _ => m == n
  | .float x _, .float y _ => x.numEq y
  | _, _ => false

end Number

end Json

inductive Json where
  | null
  | bool (b : Bool)
  | num (n : Json.Number)
  | str (s : String)
  | arr (items : List Json)
  | obj (members : List (String × Json))
deriving Repr, Inhabited

namespace Json

def ofUInt64 (n : UInt64) : Json := .num (.ofUInt64 n)

def ofInt64 (n : Int64) : Json := .num (.ofInt64 n)

def ofNat (n : Nat) : Json := .ofUInt64 (UInt64.ofNat n)

/-- A float, which must be finite to have a number: the others become null. -/
def ofDouble (x : Double) : Json :=
  if h : x.isFinite = true then .num (.float x h) else .null

/-- The object with these members, the last one of a name winning. -/
def mkObj (members : List (String × Json)) : Json := .obj (Keyed.ofList members)

def isNull : Json → Bool
  | .null => true
  | _ => false

def member? (name : String) : Json → Option Json
  | .obj members => Keyed.find? name members
  | _ => none

def items? : Json → Option (List Json)
  | .arr items => some items
  | _ => none

mutual

/-- A document with the members of its objects in the order of their names. -/
def byName : Json → Json
  | .arr items => .arr (itemsByName items)
  | .obj members => .mkObj (membersByName members)
  | .null => .null
  | .bool b => .bool b
  | .num n => .num n
  | .str s => .str s

def itemsByName : List Json → List Json
  | [] => []
  | j :: js => j.byName :: itemsByName js

def membersByName : List (String × Json) → List (String × Json)
  | [] => []
  | (k, j) :: ms => (k, j.byName) :: membersByName ms

end

/-! ### Equality -/

mutual

def decEq : (a b : Json) → Decidable (a = b)
  | .null, .null => .isTrue rfl
  | .bool a, .bool b => if h : a = b then .isTrue (h ▸ rfl) else .isFalse (by simp [h])
  | .num a, .num b => if h : a = b then .isTrue (h ▸ rfl) else .isFalse (by simp [h])
  | .str a, .str b => if h : a = b then .isTrue (h ▸ rfl) else .isFalse (by simp [h])
  | .arr a, .arr b => match decEqItems a b with
    | .isTrue h => .isTrue (h ▸ rfl)
    | .isFalse h => .isFalse (by simp [h])
  | .obj a, .obj b => match decEqMembers a b with
    | .isTrue h => .isTrue (h ▸ rfl)
    | .isFalse h => .isFalse (by simp [h])
  | .null, .bool _ | .null, .num _ | .null, .str _ | .null, .arr _ | .null, .obj _
  | .bool _, .null | .bool _, .num _ | .bool _, .str _ | .bool _, .arr _ | .bool _, .obj _
  | .num _, .null | .num _, .bool _ | .num _, .str _ | .num _, .arr _ | .num _, .obj _
  | .str _, .null | .str _, .bool _ | .str _, .num _ | .str _, .arr _ | .str _, .obj _
  | .arr _, .null | .arr _, .bool _ | .arr _, .num _ | .arr _, .str _ | .arr _, .obj _
  | .obj _, .null | .obj _, .bool _ | .obj _, .num _ | .obj _, .str _ | .obj _, .arr _ =>
    .isFalse nofun

def decEqItems : (a b : List Json) → Decidable (a = b)
  | [], [] => .isTrue rfl
  | [], _ :: _ | _ :: _, [] => .isFalse nofun
  | a :: as, b :: bs => match decEq a b, decEqItems as bs with
    | .isTrue h, .isTrue hs => .isTrue (h ▸ hs ▸ rfl)
    | .isFalse h, _ => .isFalse (by simp [h])
    | _, .isFalse h => .isFalse (by simp [h])

def decEqMembers : (a b : List (String × Json)) → Decidable (a = b)
  | [], [] => .isTrue rfl
  | [], _ :: _ | _ :: _, [] => .isFalse nofun
  | (k, a) :: as, (l, b) :: bs =>
    if hk : k = l then
      match decEq a b, decEqMembers as bs with
      | .isTrue h, .isTrue hs => .isTrue (hk ▸ h ▸ hs ▸ rfl)
      | .isFalse h, _ => .isFalse (by simp [h])
      | _, .isFalse h => .isFalse (by simp [h])
    else .isFalse (by simp [hk])

end

instance : DecidableEq Json := decEq

mutual

/-- Equality of documents with numbers taken at their value. -/
def same : Json → Json → Bool
  | .null, .null => true
  | .bool a, .bool b => a == b
  | .num a, .num b => a.same b
  | .str a, .str b => a == b
  | .arr a, .arr b => sameItems a b
  | .obj a, .obj b => sameMembers a b
  | _, _ => false

def sameItems : List Json → List Json → Bool
  | [], [] => true
  | a :: as, b :: bs => a.same b && sameItems as bs
  | _, _ => false

def sameMembers : List (String × Json) → List (String × Json) → Bool
  | [], [] => true
  | (k, a) :: as, (l, b) :: bs => k == l && a.same b && sameMembers as bs
  | _, _ => false

end

end Json

end RowQuery
