import RowQuery.Double.Rounding

/-!
# Decimal text of binary64 numbers

`Double.shortest` is the decimal of fewest digits that rounds to the number, and of those the
nearest one. A `Layout` says which of two equally near ones is written, and how the digits are set.
`Double.ofText?` reads decimal text to the nearest number.
-/

namespace RowQuery

/-- The number `digits * 10 ^ exponent`. -/
structure Decimal where
  digits : Nat
  exponent : Int
deriving DecidableEq, Repr

/-- Which of two equally near decimals stands for a number. -/
inductive Tie where
  /-- The one further from zero. -/
  | up
  /-- The one whose last digit is even. -/
  | even
deriving DecidableEq, Repr

/-- How a number is set out in decimal. -/
structure Layout where
  tie : Tie
  /-- The decimal places of the leading digit, first and past the last, that are written without an
  exponent; with `none` all are. -/
  positional : Option (Int × Int)
  /-- Whether a whole number is followed by a point and a zero. -/
  wholePoint : Bool

namespace Layout

/-- An exponent from 10^16 on and below 10^-4, and a point in every number without one. -/
def exact : Layout := ⟨.up, some (-4, 16), true⟩

/-- The numbers of JSON: as in `exact`, but a tie goes to the even digit. -/
def json : Layout := { exact with tie := .even }

/-- Never an exponent, and a point only before a fraction. -/
def plain : Layout := ⟨.up, none, false⟩

def isPositional (l : Layout) (place : Int) : Bool :=
  match l.positional with
  | none => true
  | some (first, past) => decide (first ≤ place ∧ place < past)

/-- The text of a decimal that is not negative. -/
def text (l : Layout) (d : Decimal) : String :=
  let ds := (Nat.repr d.digits).toList
  let place := d.exponent + ds.length - 1
  let whole : List Char := if l.wholePoint then ['.', '0'] else []
  String.ofList <|
    if l.isPositional place then
      if 0 ≤ d.exponent then ds ++ List.replicate d.exponent.toNat '0' ++ whole
      else if 0 ≤ place then ds.take (place + 1).toNat ++ '.' :: ds.drop (place + 1).toNat
      else '0' :: '.' :: List.replicate (-place - 1).toNat '0' ++ ds
    else
      ds.take 1 ++ (if ds.length = 1 then [] else '.' :: ds.drop 1) ++
        'e' :: (toString place).toList

end Layout

namespace Double

/-- The nearer of `d` and `d + 1` to `value / den`, which lies between them. -/
def nearer (tie : Tie) (value den d : Nat) : Nat :=
  match compare (2 * (value - d * den)) den, tie with
  | .lt, _ => d
  | .gt, _ => d + 1
  | .eq, .up => d + 1
  | .eq, .even => d + d % 2

theorem nearer_eq_or (tie : Tie) (value den d : Nat) :
    nearer tie value den d = d ∨ nearer tie value den d = d + 1 := by
  unfold nearer
  split <;> omega

/-- What of `x` lies on the grid of multiples of `10 ^ g`: the nearer of the two neighbours of `x`
that round to `x`. The interval of the reals that do is counted in quarters of the last place. -/
def onGrid? (tie : Tie) (x : Double) (g : Int) : Option Nat :=
  let (m, e) := x.decode
  let below := if m = hiddenBit ∧ -1074 < e then 1 else 2
  let (up, den) := scaleDown (Nat.pow 10 (-g).toNat) (Nat.pow 10 g.toNat) (2 - e)
  let (low, value, high) := ((4 * m - below) * up, 4 * m * up, (4 * m + 2) * up)
  let d := value / den
  let lowest := if m % 2 = 0 then decide (low ≤ d * den) else decide (low < d * den)
  let highest := if m % 2 = 0 then decide ((d + 1) * den ≤ high) else decide ((d + 1) * den < high)
  match lowest, highest with
  | true, true => some (nearer tie value den d)
  | true, false => some d
  | false, true => some (d + 1)
  | false, false => none

/-- The shortest decimal that rounds to the magnitude of `x`, which is finite and not zero. Grids
are tried from the coarsest on; one that holds seventeen digits of `x` always has a hit. -/
def shortest (tie : Tie) (x : Double) : Decimal :=
  let (m, e) := x.decode
  let top : Int := (m.log2 + e) * 30103 / 100000 + 2
  ((List.range 20).findSome? fun (i : Nat) =>
    (x.onGrid? tie (top - i)).map fun d => ⟨d, top - i⟩).getD ⟨0, 0⟩

def text (l : Layout) (x : Double) : String :=
  if x.isNaN then "NaN"
  else
    (if x.isNegative then "-" else "") ++
      (if x.isZero then l.text ⟨0, 0⟩
        else if x.isFinite then l.text (x.shortest l.tie) else "inf")

/-- The number nearest to a decimal. Decimals far outside the range are not computed. -/
def ofDecimal (negative : Bool) (d : Decimal) : Double :=
  let place := d.exponent + (Nat.repr d.digits).length
  if d.digits = 0 ∨ place < -400 then make negative 0
  else if 400 < place then infinity negative
  else ofRatio negative (d.digits * Nat.pow 10 d.exponent.toNat)
    (Nat.pow 10 (-d.exponent).toNat)

end Double

/-- The number that decimal digits write after `n`. -/
def readDigits (n : Nat) (ds : List Char) : Nat :=
  ds.foldl (fun n c => 10 * n + (c.toNat - 48)) n

/-- A sign in front of a text: whether it is a minus, and the rest. -/
def splitSign : List Char → Bool × List Char
  | '-' :: cs => (true, cs)
  | '+' :: cs => (false, cs)
  | cs => (false, cs)

namespace Double

/-- Reads an unsigned decimal: digits with a point anywhere among them, then an exponent. -/
def ofUnsigned? (negative : Bool) (cs : List Char) : Option Double :=
  let (whole, cs) := cs.span Char.isDigit
  let (fraction, cs) := match cs with
    | '.' :: cs => cs.span Char.isDigit
    | cs => ([], cs)
  if whole.isEmpty && fraction.isEmpty then none
  else
    let digits := readDigits (readDigits 0 whole) fraction
    let d (e : Int) := ofDecimal negative ⟨digits, e - fraction.length⟩
    match cs with
    | [] => some (d 0)
    | c :: cs =>
      let (down, ds) := splitSign cs
      if (c == 'e' || c == 'E') && !ds.isEmpty && ds.all Char.isDigit then
        let e : Int := readDigits 0 ds
        some (d (if down then -e else e))
      else none

/-- Reads a number as text: a sign, then a decimal, `inf`, `infinity` or `nan` in any case. -/
def ofText? (s : String) : Option Double :=
  let (negative, cs) := splitSign s.toList
  let word := String.ofList (cs.map Char.toLower)
  if word = "inf" ∨ word = "infinity" then some (infinity negative)
  else if word = "nan" then some nan
  else ofUnsigned? negative cs

end Double

end RowQuery
