import RowQuery.Operator.Json

/-!
# Caching

How long the rows of a query may be served again: not at all, as long as the repository says, or for
a time of its own.
-/

namespace RowQuery

structure Duration where
  seconds : UInt64
  nanos : Nat
  nanos_lt : nanos < 1000000000
deriving DecidableEq, Repr

namespace Duration

/-- Whole seconds among the nanoseconds are carried over, unless they do not fit. -/
def ofParts? (seconds nanos : Nat) : Option Duration :=
  if seconds + nanos / 1000000000 < 0x10000000000000000 then
    some ⟨UInt64.ofNat (seconds + nanos / 1000000000), nanos % 1000000000,
      Nat.mod_lt _ (by decide)⟩
  else none

def ofMillis (ms : UInt64) : Duration :=
  ⟨ms / 1000, ms.toNat % 1000 * 1000000, by omega⟩

def toNanos (d : Duration) : Nat := d.seconds.toNat * 1000000000 + d.nanos

def toJson (d : Duration) : Json :=
  .mkObj [("secs", .ofUInt64 d.seconds), ("nanos", .ofNat d.nanos)]

/-- Both parts, by name or in order, and nothing else. -/
def ofSource? : Source → Option Duration
  | .arr [seconds, nanos] => make seconds nanos
  | .obj ms => do
    let fields ← (Source.obj ms).fields?
    if fields.length = 2 then
      make (← Source.required? "secs" fields) (← Source.required? "nanos" fields)
    else none
  | _ => none
where
  make (seconds nanos : Source) : Option Duration := do
    ofParts? (← seconds.below? 0x10000000000000000) (← nanos.below? 0x100000000)

end Duration

inductive CachePolicy where
  | disabled
  /-- For the time that the repository is configured with. -/
  | standard
  | ttl (d : Duration)
deriving DecidableEq, Repr, Inhabited

namespace CachePolicy

/-- How long rows are kept, given the standard time. -/
def resolve (standardTime : Duration) : CachePolicy → Option Duration
  | disabled => none
  | standard => some standardTime
  | ttl d => some d

def ofBool (enabled : Bool) : CachePolicy := if enabled then standard else disabled

def toJson : CachePolicy → Json
  | disabled => .str "disabled"
  | standard => .str "default"
  | ttl d => .mkObj [("ttl", d.toJson)]

/-- A policy by its name, or an object with one member. -/
def ofSource? (buffered : Bool) (j : Source) : Option CachePolicy :=
  match j.choice? buffered Source.maxDepth with
  | some "disabled" => some disabled
  | some "default" => some standard
  | _ => match j with
    | .obj [(us, d)] =>
      if StringUnit.text? us = some "ttl" then (Duration.ofSource? d).map ttl else none
    | _ => none

/-- Reads a policy from text. -/
def parse? (s : String) : Option CachePolicy := (Source.readText? s).bind (ofSource? false)

end CachePolicy

end RowQuery
