import RowQuery.Json.Printer

/-!
# UUIDs

A UUID is 128 bits. Its text is 32 hexadecimal digits in groups of 8, 4, 4, 4 and 12.
-/

namespace RowQuery

structure Uuid where
  bits : BitVec 128
deriving DecidableEq, Repr

namespace Uuid

/-- The hexadecimal digits, the highest first. -/
def digits (u : Uuid) : List Nat :=
  (List.range 32).map fun i => u.bits.toNat >>> (4 * (31 - i)) % 16

def text (u : Uuid) : String :=
  let ds := u.digits.map Json.hexDigit
  String.ofList <| ds.take 8 ++ '-' :: (ds.drop 8).take 4 ++ '-' :: (ds.drop 12).take 4 ++
    '-' :: (ds.drop 16).take 4 ++ '-' :: ds.drop 20

def digitValue? (c : Char) : Option Nat :=
  if c.isDigit then some (c.toNat - 48)
  else if 'a' ≤ c ∧ c ≤ 'f' then some (c.toNat - 87)
  else if 'A' ≤ c ∧ c ≤ 'F' then some (c.toNat - 55)
  else none

/-- Reads the text form, with digits of either case. -/
def ofText? (s : String) : Option Uuid :=
  match s.toList.splitOn '-' with
  | [a, b, c, d, e] =>
    if [a, b, c, d, e].map List.length = [8, 4, 4, 4, 12] then
      ((a ++ b ++ c ++ d ++ e).mapM digitValue?).map fun ds =>
        ⟨BitVec.ofNat 128 (ds.foldl (fun n d => 16 * n + d) 0)⟩
    else none
  | _ => none

end Uuid

end RowQuery
