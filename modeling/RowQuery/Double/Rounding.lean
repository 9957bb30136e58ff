import RowQuery.Double

/-!
# Rounding to binary formats

A quotient of whole numbers is rounded to the nearest number of the format, a half going to the
even neighbour. Products, quotients and conversions are exact first and rounded once.
-/

namespace RowQuery

/-- `num / den` to the nearest whole number, a half to the even one. -/
def roundHalfEven (num den : Nat) : Nat :=
  let q := num / den
  let r := num % den
  if 2 * r < den then q else if den < 2 * r then q + 1 else q + q % 2

/-- `num / den / 2 ^ e` as a quotient. -/
def scaleDown (num den : Nat) (e : Int) : Nat × Nat :=
  if 0 ≤ e then (num, den <<< e.toNat) else (num <<< (-e).toNat, den)

/-- The exponent of the last place when `num / den` is held to `digits` binary digits and no
place lies below `least`. -/
def lastPlace (digits : Nat) (least : Int) (num den : Nat) : Int :=
  let e : Int := (num.log2 : Int) - den.log2 - digits
  let (a, b) := scaleDown num den e
  max least (if 1 <<< digits ≤ a / b then e + 1 else e)

namespace Double

/-- The number nearest to `± num / den`; past the largest finite one lies infinity. -/
def ofRatio (negative : Bool) (num den : Nat) : Double :=
  if num = 0 then make negative 0
  else
    let e := lastPlace 53 (-1074) num den
    let (a, b) := scaleDown num den e
    make negative (min infiniteMagnitude ((e + 1074).toNat * hiddenBit + roundHalfEven a b))

def ofInt (n : Int) : Double := ofRatio (decide (n < 0)) n.natAbs 1

def ofNat (n : Nat) : Double := ofRatio false n 1

/-- The product of two finite numbers. -/
def times (x y : Double) : Double :=
  let (a, b) := x.toRatio
  let (c, d) := y.toRatio
  ofRatio (x.isNegative != y.isNegative) (a * c) (b * d)

/-- The quotient of two finite numbers, the second not zero. -/
def dividedBy (x y : Double) : Double :=
  let (a, b) := x.toRatio
  let (c, d) := y.toRatio
  ofRatio (x.isNegative != y.isNegative) (a * d) (b * c)

/-- The nearest number with 24 binary digits and the exponents of single precision. -/
def toSingle (x : Double) : Double :=
  if x.isFinite then
    let (num, den) := x.toRatio
    if num = 0 then x
    else
      let e := lastPlace 24 (-149) num den
      let (a, b) := scaleDown num den e
      let (c, d) := scaleDown (roundHalfEven a b) 1 (-e)
      if d <<< 128 ≤ c then infinity x.isNegative else ofRatio x.isNegative c d
  else x

end Double

end RowQuery
