import RowQuery.Text.Blank
import RowQuery.Uuid

/-!
# String literals

The text that a string literal stands for. A raw literal is its text between quotes, with `r` and as
many hashes before as there are hashes after; in a plain one a backslash begins an escape. Blanks and
comments may stand around a literal, and a suffix right behind it says nothing about its text.
-/

namespace RowQuery.Literal

/-! ### Around a literal -/

/-- A blank, or one of the two marks of writing direction. -/
def isSpace (c : Char) : Bool := Text.isBlank c || c == '\u200e' || c == '\u200f'

inductive Gap where
  | blank
  | line
  /-- Inside as many comments, one in another, and one more. -/
  | comment (depth : Nat)

/-- What is left behind blanks and comments, from inside a gap on. -/
def afterGap : Gap → List Char → List Char
  | _, [] => []
  | .blank, '/' :: '/' :: cs => afterGap .line cs
  | .blank, '/' :: '*' :: cs => afterGap (.comment 0) cs
  | .blank, c :: cs => if isSpace c then afterGap .blank cs else c :: cs
  | .line, c :: cs => afterGap (if c = '\n' then .blank else .line) cs
  | .comment depth, '/' :: '*' :: cs => afterGap (.comment (depth + 1)) cs
  | .comment 0, '*' :: '/' :: cs => afterGap .blank cs
  | .comment (depth + 1), '*' :: '/' :: cs => afterGap (.comment depth) cs
  | .comment depth, _ :: cs => afterGap (.comment depth) cs

/-- What is left behind a suffix, which is written like a name. -/
def afterSuffix : List Char → List Char
  | [] => []
  | c :: cs =>
    if c.isAlpha || c == '_' then cs.dropWhile fun c => c.isAlphanum || c == '_' else c :: cs

/-! ### Raw literals -/

/-- Whether a text begins with the end of a raw literal: a quote and `hashes` many hashes. -/
def closesRaw (hashes : Nat) (cs : List Char) : Bool :=
  ('"' :: List.replicate hashes '#').isPrefixOf cs

/-- The text before the end of a raw literal, and what follows it. -/
def rawText? (hashes : Nat) : List Char → Option (List Char × List Char)
  | [] => none
  | c :: cs =>
    if closesRaw hashes (c :: cs) then some ([], cs.drop hashes)
    else (rawText? hashes cs).map fun (text, rest) => (c :: text, rest)

/-! ### Plain literals -/

/-- The source without line breaks behind a backslash and the blanks that follow them. -/
def joinLines : (broken : Bool) → List Char → List Char
  | _, [] => []
  | _, '\\' :: '\n' :: cs => joinLines true cs
  | _, '\\' :: c :: cs => '\\' :: c :: joinLines false cs
  | broken, c :: cs => if broken && isSpace c then joinLines true cs else c :: joinLines false cs

/-- What the letter after a backslash stands for. -/
def escaped? : Char → Option Char
  | 'n' => some '\n'
  | 'r' => some '\r'
  | 't' => some '\t'
  | '0' => some '\x00'
  | '\\' => some '\\'
  | '\'' => some '\''
  | '"' => some '"'
  | _ => none

/-- The character of a code point. -/
def character? (n : Nat) : Option Char := if n.isValidChar then some (Char.ofNat n) else none

/-- The text before the closing quote, and what follows it. Inside braces `code` is the number that
the hexadecimal digits so far write; underscores among them are passed over. -/
def plainText? : (code : Option Nat) → List Char → Option (List Char × List Char)
  | _, [] => none
  | some n, c :: cs =>
    if c = '\x7d' then do
      let (text, rest) ← plainText? none cs
      return ((← character? n) :: text, rest)
    else if c = '_' then plainText? (some n) cs
    else (Uuid.digitValue? c).bind fun d => plainText? (some (16 * n + d)) cs
  | none, '"' :: cs => some ([], cs)
  | none, '\\' :: 'u' :: '\x7b' :: cs => plainText? (some 0) cs
  | none, '\\' :: 'x' :: a :: b :: cs => do
    let (text, rest) ← plainText? none cs
    let n := 16 * (← Uuid.digitValue? a) + (← Uuid.digitValue? b)
    if n < 128 then return (Char.ofNat n :: text, rest) else none
  | none, '\\' :: c :: cs => do
    let (text, rest) ← plainText? none cs
    return ((← escaped? c) :: text, rest)
  | none, '\r' :: '\n' :: cs => (plainText? none cs).map fun (text, rest) => ('\n' :: text, rest)
  | none, c :: cs => (plainText? none cs).map fun (text, rest) => (c :: text, rest)

/-! ### Reading -/

/-- The text of the literal at the front, and what follows it. -/
def read? : List Char → Option (List Char × List Char)
  | '"' :: cs => plainText? none (joinLines false cs)
  | 'r' :: cs =>
    match cs.dropWhile (· == '#') with
    | '"' :: body => rawText? (cs.takeWhile (· == '#')).length body
    | _ => none
  | _ => none

/-- The text of an expression that is a string literal and nothing else. -/
def text? (source : String) : Option String := do
  let (text, rest) ← read? (afterGap .blank source.toList)
  if (afterGap .blank (afterSuffix rest)).isEmpty then some (String.ofList text) else none

end RowQuery.Literal
