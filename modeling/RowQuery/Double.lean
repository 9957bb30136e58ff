/-!
# Binary64 numbers

A `Double` is its 64 bits. Below the sign bit they grow with the number they stand for, so the
signed `key` puts the numbers in order and gives the two zeros one place.
-/

namespace RowQuery

structure Double where
  bits : UInt64
deriving DecidableEq, Repr, Inhabited

namespace Double

/-- The magnitude of the infinities: every exponent bit set and no fraction bit. -/
def infiniteMagnitude : Nat := 0x7ff0000000000000

/-- The bit above the 52 bits of the fraction, which only numbers of full precision have. -/
def hiddenBit : Nat := 0x10000000000000

def signBit : Nat := 0x8000000000000000

/-- The number with the given sign and the given bits below it. -/
def make (negative : Bool) (magnitude : Nat) : Double :=
  ⟨UInt64.ofNat (magnitude + if negative then signBit else 0)⟩

def zero : Double := make false 0

def infinity (negative : Bool) : Double := make negative infiniteMagnitude

def nan : Double := make false 0x7ff8000000000000

section
variable (x y : Double)

/-- The bits below the sign. -/
def magnitude : Nat := x.bits.toNat % signBit

def isNegative : Bool := decide (signBit ≤ x.bits.toNat)

def isNaN : Bool := decide (infiniteMagnitude < x.magnitude)

def isFinite : Bool := decide (x.magnitude < infiniteMagnitude)

def isZero : Bool := x.magnitude == 0

def neg : Double := make (!x.isNegative) x.magnitude

/-- The place of a number in the order of the reals. -/
def key : Int := if x.isNegative then -(x.magnitude : Int) else x.magnitude

/-- The order of two numbers; a NaN has none with anything. -/
def compare? : Option Ordering :=
  if x.isNaN || y.isNaN then none else some (compare x.key y.key)

/-- Equality of numbers: the zeros are equal, and a NaN is equal to nothing. -/
def numEq : Bool := x.compare? y == some .eq

/-- The whole `m` and exponent `e` with `|x| = m * 2 ^ e`, for a finite `x`. -/
def decode : Nat × Int :=
  let biased : Nat := x.magnitude / hiddenBit
  let fraction : Nat := x.magnitude % hiddenBit
  if biased = 0 then (fraction, -1074) else (fraction + hiddenBit, (biased : Int) - 1075)

/-- `|x|` as a quotient of whole numbers, for a finite `x`. -/
def toRatio : Nat × Nat :=
  let (m, e) := x.decode
  if 0 ≤ e then (m <<< e.toNat, 1) else (m, 1 <<< (-e).toNat)

end

end Double

end RowQuery
