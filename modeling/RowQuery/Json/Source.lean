import RowQuery.Json

/-!
# JSON as written

`Source.read?` takes UTF-8 bytes by the grammar of RFC 8259 and keeps numbers and strings as they
stand. They are given their values only where a value is asked for: a member that nobody reads may
hold a number out of range, a lone surrogate, bytes that are no text or any depth of nesting.
`Source.ofJson` goes the other way, without a text between.
-/

namespace RowQuery

/-- The whole number that decimal digits write. -/
def decimalValue (ds : List Nat) : Nat := ds.foldl (fun n d => 10 * n + d) 0

/-- A number as written: its digits before and after the point, and the exponent. -/
structure Numeral where
  negative : Bool
  whole : List Nat
  fraction : List Nat
  exponent : Option Int
deriving DecidableEq, Repr

/-- A piece of a string as written: a byte that stands for itself, or an escaped UTF-16 unit. -/
inductive StringUnit where
  | raw (b : UInt8)
  | code (n : Nat)
deriving DecidableEq, Repr

inductive Source where
  | null
  | bool (b : Bool)
  | num (n : Numeral)
  /-- A number that was never written and has its value already. -/
  | known (n : Json.Number)
  | str (units : List StringUnit)
  | arr (items : List Source)
  | obj (members : List (List StringUnit × Source))
deriving Repr, Inhabited

/-! ### Numbers -/

namespace Numeral

/-- Appends digits to a significand as long as it fits 64 bits; what is left over is returned. -/
def appendDigits (s : Nat) : List Nat → Nat × List Nat
  | [] => (s, [])
  | d :: ds =>
    if 10 * s + d < 0x10000000000000000 then appendDigits (10 * s + d) ds else (s, d :: ds)

def powerOfTen (n : Nat) : Double := .ofNat (Nat.pow 10 n)

/-- `s * 10 ^ e` in binary64, rounded after each step: the significand, then one power of ten. A
smaller number than one division can reach takes two. `none` is a number out of range. -/
def scale? (s : Nat) (e : Int) : Option Double :=
  let x := Double.ofNat s
  if s = 0 then some x
  else if 308 < e then none
  else if 0 ≤ e then some (x.times (powerOfTen e.toNat))
  else if -308 ≤ e then some (x.dividedBy (powerOfTen (-e).toNat))
  else if -616 ≤ e then
    some ((x.dividedBy (powerOfTen 308)).dividedBy (powerOfTen (-e - 308).toNat))
  else some .zero

def toDouble? (n : Numeral) : Option Double :=
  let (s, dropped) := appendDigits 0 n.whole
  let (s, unread) := appendDigits s n.fraction
  let e : Int := dropped.length - (n.fraction.length - unread.length : Nat) + n.exponent.getD 0
  (scale? s e).map fun x => if n.negative then x.neg else x

/-- A numeral without point and exponent is whole if 64 bits hold it; `-0` and all others are
floats, which must be finite. -/
def number? (n : Numeral) : Option Json.Number :=
  let whole : Int := decimalValue n.whole
  let value := if n.negative then -whole else whole
  let isWhole := n.fraction.isEmpty && n.exponent.isNone && !(n.negative && whole == 0)
  if h : isWhole = true ∧ -0x8000000000000000 ≤ value ∧ value < 0x10000000000000000 then
    some (.int value h.2)
  else match n.toDouble? with
    | some x => if h : x.isFinite = true then some (.float x h) else none
    | none => none

end Numeral

/-! ### Strings -/

namespace StringUnit

def isHighSurrogate (n : Nat) : Bool := 0xD800 ≤ n && n < 0xDC00
def isLowSurrogate (n : Nat) : Bool := 0xDC00 ≤ n && n < 0xE000

/-- The UTF-8 bytes of a string; two escapes may together name a character past U+FFFF. -/
def bytes? : List StringUnit → Option (List UInt8)
  | [] => some []
  | .raw b :: us => (bytes? us).map (b :: ·)
  | .code m :: .code n :: us =>
    if isHighSurrogate m && isLowSurrogate n then
      (bytes? us).map (String.utf8EncodeChar
        (Char.ofNat ((m - 0xD800) * 0x400 + (n - 0xDC00) + 0x10000)) ++ ·)
    else if isHighSurrogate m || isLowSurrogate m then none
    else (bytes? (.code n :: us)).map (String.utf8EncodeChar (Char.ofNat m) ++ ·)
  | .code m :: us =>
    if isHighSurrogate m || isLowSurrogate m then none
    else (bytes? us).map (String.utf8EncodeChar (Char.ofNat m) ++ ·)

/-- The text of a string; `none` where its escapes or its bytes are no text. -/
def text? (us : List StringUnit) : Option String :=
  (bytes? us).bind fun bs => String.fromUTF8? ⟨bs.toArray⟩

/-- A text without escapes. -/
def ofText (s : String) : List StringUnit := s.toUTF8.data.toList.map .raw

@[simp] theorem bytes?_map_raw (bs : List UInt8) : bytes? (bs.map .raw) = some bs := by
  induction bs with
  | nil => rfl
  | cons b bs ih => simp [bytes?, ih]

@[simp] theorem text?_ofText (s : String) : text? (ofText s) = some s := by
  simp only [text?, ofText, bytes?_map_raw, Option.bind_some, Array.toArray_toList]
  exact dif_pos s.isValidUTF8

end StringUnit

namespace Source

/-! ### Grammar -/

/-- Space, tab, line feed and carriage return. -/
def isBlank (b : UInt8) : Bool := b == 32 || b == 9 || b == 10 || b == 13

def skipBlanks (bs : List UInt8) : List UInt8 := bs.dropWhile isBlank

def isDigit (b : UInt8) : Bool := 48 ≤ b && b ≤ 57

/-- The digits at the front, and the rest. -/
def digits (bs : List UInt8) : List Nat × List UInt8 :=
  ((bs.takeWhile isDigit).map fun b => b.toNat - 48, bs.dropWhile isDigit)

def hexValue? (b : UInt8) : Option Nat :=
  if isDigit b then some (b.toNat - 48)
  else if 97 ≤ b && b ≤ 102 then some (b.toNat - 87)
  else if 65 ≤ b && b ≤ 70 then some (b.toNat - 55)
  else none

def hex4? (a b c d : UInt8) : Option Nat := do
  return 0x1000 * (← hexValue? a) + 0x100 * (← hexValue? b) + 0x10 * (← hexValue? c) +
    (← hexValue? d)

/-- What the letter after a backslash stands for. -/
def escaped? (b : UInt8) : Option UInt8 :=
  if b == 34 || b == 92 || b == 47 then some b
  else if b == 98 then some 8
  else if b == 102 then some 12
  else if b == 110 then some 10
  else if b == 114 then some 13
  else if b == 116 then some 9
  else none

/-- The rest of a string after its opening quote (34). A backslash is 92, and 117 the `u` after
it. -/
def stringUnits : List UInt8 → Option (List StringUnit × List UInt8)
  | [] => none
  | 34 :: bs => some ([], bs)
  | 92 :: 117 :: a :: b :: c :: d :: bs => do
    let n ← hex4? a b c d
    let (us, bs) ← stringUnits bs
    return (.code n :: us, bs)
  | 92 :: b :: bs => do
    let e ← escaped? b
    let (us, bs) ← stringUnits bs
    return (.raw e :: us, bs)
  | b :: bs =>
    if b < 32 || b == 92 then none
    else do
      let (us, bs) ← stringUnits bs
      return (.raw b :: us, bs)

/-- The digits after a point (46); without a point there are none. -/
def fraction? : List UInt8 → Option (List Nat × List UInt8)
  | 46 :: bs =>
    match digits bs with
    | ([], _) => none
    | r => some r
  | bs => some ([], bs)

/-- What follows the mark of an exponent: a sign, and at least one digit. -/
def exponentDigits? (negative : Bool) (bs : List UInt8) : Option (Option Int × List UInt8) :=
  match digits bs with
  | ([], _) => none
  | (ds, bs) =>
    let e : Int := decimalValue ds
    some (some (if negative then -e else e), bs)

/-- An exponent, marked by `e` (101) or `E` (69). -/
def exponent? : List UInt8 → Option (Option Int × List UInt8)
  | b :: bs =>
    if b == 101 || b == 69 then
      match bs with
      | 45 :: bs => exponentDigits? true bs
      | 43 :: bs => exponentDigits? false bs
      | bs => exponentDigits? false bs
    else some (none, b :: bs)
  | [] => some (none, [])

/-- A numeral. A leading zero stands alone before the point. -/
def numeral? (negative : Bool) (bs : List UInt8) : Option (Numeral × List UInt8) :=
  match digits bs with
  | ([], _) => none
  | (0 :: _ :: _, _) => none
  | (whole, bs) => do
    let (fraction, bs) ← fraction? bs
    let (exponent, bs) ← exponent? bs
    return (⟨negative, whole, fraction, exponent⟩, bs)

mutual

/-- One value at the front of the bytes. The first argument bounds the steps. -/
def readValue? : Nat → List UInt8 → Option (Source × List UInt8)
  | 0, _ => none
  | fuel + 1, bs =>
    match skipBlanks bs with
    | 110 :: 117 :: 108 :: 108 :: bs => some (.null, bs)
    | 116 :: 114 :: 117 :: 101 :: bs => some (.bool true, bs)
    | 102 :: 97 :: 108 :: 115 :: 101 :: bs => some (.bool false, bs)
    | 34 :: bs => (stringUnits bs).map fun (us, bs) => (.str us, bs)
    | 91 :: bs =>
      match skipBlanks bs with
      | 93 :: bs => some (.arr [], bs)
      | bs => (readItems? fuel bs).map fun (js, bs) => (.arr js, bs)
    | 123 :: bs =>
      match skipBlanks bs with
      | 125 :: bs => some (.obj [], bs)
      | bs => (readMembers? fuel bs).map fun (ms, bs) => (.obj ms, bs)
    | 45 :: bs => (numeral? true bs).map fun (n, bs) => (.num n, bs)
    | bs => (numeral? false bs).map fun (n, bs) => (.num n, bs)

/-- Values with commas (44) between them, up to the closing bracket (93). -/
def readItems? : Nat → List UInt8 → Option (List Source × List UInt8)
  | 0, _ => none
  | fuel + 1, bs => do
    let (j, bs) ← readValue? fuel bs
    match skipBlanks bs with
    | 44 :: bs =>
      let (js, bs) ← readItems? fuel bs
      return (j :: js, bs)
    | 93 :: bs => return ([j], bs)
    | _ => none

/-- Members with commas between them, a colon (58) after each name, up to the closing brace. -/
def readMembers? : Nat → List UInt8 → Option (List (List StringUnit × Source) × List UInt8)
  | 0, _ => none
  | fuel + 1, bs =>
    match skipBlanks bs with
    | 34 :: bs => do
      let (name, bs) ← stringUnits bs
      match skipBlanks bs with
      | 58 :: bs =>
        let (j, bs) ← readValue? fuel bs
        match skipBlanks bs with
        | 44 :: bs =>
          let (ms, bs) ← readMembers? fuel bs
          return ((name, j) :: ms, bs)
        | 125 :: bs => return ([(name, j)], bs)
        | _ => none
      | _ => none
    | _ => none

end

/-- The one value that the bytes write. Every two steps take at least one byte. -/
def read? (bs : List UInt8) : Option Source :=
  match readValue? (2 * bs.length + 2) bs with
  | some (j, rest) => if (skipBlanks rest).isEmpty then some j else none
  | none => none

def readText? (s : String) : Option Source := read? s.toUTF8.toList

/-! ### Values -/

def number? : Source → Option Json.Number
  | .num n => n.number?
  | .known n => some n
  | _ => none

mutual

/-- The document written, if every part of it has a value and it is at most `depth` deep. -/
def json? (depth : Nat) : Source → Option Json
  | .null => some .null
  | .bool b => some (.bool b)
  | .num n => n.number?.map .num
  | .known n => some (.num n)
  | .str us => (StringUnit.text? us).map .str
  | .arr js => match depth with
    | 0 => none
    | depth + 1 => (jsonItems? depth js).map .arr
  | .obj ms => match depth with
    | 0 => none
    | depth + 1 => (jsonMembers? depth ms).map Json.mkObj

def jsonItems? (depth : Nat) : List Source → Option (List Json)
  | [] => some []
  | j :: js => do return (← j.json? depth) :: (← jsonItems? depth js)

def jsonMembers? (depth : Nat) : List (List StringUnit × Source) → Option (List (String × Json))
  | [] => some []
  | (us, j) :: ms => do
    return (← StringUnit.text? us, ← j.json? depth) :: (← jsonMembers? depth ms)

end

/-- The deepest nesting of arrays and objects that is read. -/
def maxDepth : Nat := 127

/-- Whether every part of the document has a value. -/
def isReadable (depth : Nat) (j : Source) : Bool := (j.json? depth).isSome

/-- The members of an object under the names they have, in the order written. -/
def fields? : Source → Option (List (String × Source))
  | .obj ms => ms.mapM fun (us, j) => (StringUnit.text? us).map (·, j)
  | _ => none

/-- What stands under a name, if anything does; a name given twice is refused. -/
def unique? (name : String) (fields : List (String × Source)) : Option (Option Source) :=
  match fields.filter (·.1 == name) with
  | [] => some none
  | [field] => some (some field.2)
  | _ => none

/-- What stands under a name that must be given once. -/
def required? (name : String) (fields : List (String × Source)) : Option Source :=
  (unique? name fields).bind id

def items? : Source → Option (List Source)
  | .arr items => some items
  | _ => none

def string? : Source → Option String
  | .str us => StringUnit.text? us
  | _ => none

def bool? : Source → Option Bool
  | .bool b => some b
  | _ => none

/-- A whole number below `bound` that is not negative. -/
def below? (bound : Nat) (j : Source) : Option Nat :=
  match j.number? with
  | some (.int i _) => if 0 ≤ i ∧ i < bound then some i.toNat else none
  | _ => none

def uint64? (j : Source) : Option UInt64 := (j.below? 0x10000000000000000).map UInt64.ofNat

/-! ### Documents that were never written -/

mutual

/-- The source of a document, which has each of its numbers by value. -/
def ofJson : Json → Source
  | .null => .null
  | .bool b => .bool b
  | .num n => .known n
  | .str s => .str (StringUnit.ofText s)
  | .arr js => .arr (ofItems js)
  | .obj ms => .obj (ofMembers ms)

def ofItems : List Json → List Source
  | [] => []
  | j :: js => ofJson j :: ofItems js

def ofMembers : List (String × Json) → List (List StringUnit × Source)
  | [] => []
  | (k, j) :: ms => (StringUnit.ofText k, ofJson j) :: ofMembers ms

end

end Source

/-- The document that a text writes. -/
def Json.parse? (s : String) : Option Json :=
  (Source.readText? s).bind (Source.json? Source.maxDepth)

end RowQuery
