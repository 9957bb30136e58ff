import RowQuery.Error
import RowQuery.Json.Printer
import RowQuery.Json.Source
import RowQuery.Text.Base64
import RowQuery.Text.Blank

/-!
# Pages

A page is a window of the rows of a query. A cursor says where it begins and how many rows it takes,
and travels as an opaque token: the cursor's JSON in Base64.
-/

namespace RowQuery

structure Cursor where
  offset : UInt64
  limit : UInt64
deriving DecidableEq, Repr

namespace Cursor

def toJson (c : Cursor) : Json :=
  .mkObj [("offset", .ofUInt64 c.offset), ("limit", .ofUInt64 c.limit)]

/-- The text inside a token, with the offset first. -/
def text (c : Cursor) : String :=
  "\x7b\"offset\":" ++ toString c.offset ++ ",\"limit\":" ++ toString c.limit ++ "\x7d"

def encode (c : Cursor) : String := String.ofList (Text.Base64.encode c.text.toUTF8.toList)

/-- Both numbers, by name or in order. Other members are passed over. -/
def ofSource? : Source → Option Cursor
  | .arr [offset, limit] => do return ⟨← offset.uint64?, ← limit.uint64?⟩
  | .obj ms => do
    let fields ← (Source.obj ms).fields?
    return ⟨← (← Source.required? "offset" fields).uint64?,
      ← (← Source.required? "limit" fields).uint64?⟩
  | _ => none

/-- Reads a token, also with blanks around it. A page has room for at least one row. -/
def decode (token : String) : Except QueryError Cursor :=
  match ((Text.Base64.decode? (Text.trim token.toList)).bind Source.read?).bind ofSource? with
  | some c => if c.limit = 0 then .error .invalidToken else .ok c
  | none => .error .invalidToken

/-- The cursor of the next page, if `fetched` rows filled this one and the offset still fits. -/
def following? (c : Cursor) (fetched : Nat) : Option Cursor :=
  if fetched < c.limit.toNat then none
  else if c.offset.toNat + c.limit.toNat < 0x10000000000000000 then
    some { c with offset := c.offset + c.limit }
  else none

end Cursor

structure Pagination where
  cursor : Option Cursor
  /-- A page size that is given apart; it wins over the cursor's. -/
  limit : Option UInt64
deriving DecidableEq, Repr, Inhabited

namespace Pagination

def none : Pagination := ⟨.none, .none⟩

def offset? (p : Pagination) : Option UInt64 := p.cursor.map Cursor.offset

def pageSize? (p : Pagination) : Option UInt64 := p.limit <|> p.cursor.map Cursor.limit

def toJson (p : Pagination) : Json :=
  .mkObj [("cursor", (p.cursor.map Cursor.toJson).getD .null),
    ("limit", (p.limit.map Json.ofUInt64).getD .null)]

end Pagination

/-- A token and a page size, as a client asks for them. -/
structure PageRequest where
  next : Option String
  limit : Option UInt64
deriving DecidableEq, Repr

end RowQuery
