import RowQuery.Caching

/-!
# Cached rows

Rows that were answered once, under the text of the query that they answer, each with the moment
from which on it is no longer served. Moments count nanoseconds of a clock that never goes back.
-/

namespace RowQuery

structure CachedRows where
  key : String
  expiresAt : Nat
  rows : List Json
deriving DecidableEq, Repr

abbrev RowCache := List CachedRows

namespace RowCache

variable (c : RowCache) (now : Nat)

/-- The rows under a key, if they may still be served. -/
def find? (key : String) : Option (List Json) :=
  (List.find? (fun e => e.key == key && now < e.expiresAt) c).map CachedRows.rows

/-- Keeps rows for a time, in place of those under the same key. What has expired is let go. -/
def remember (key : String) (time : Duration) (rows : List Json) : RowCache :=
  ⟨key, now + time.toNanos, rows⟩ :: c.filter fun e => now < e.expiresAt && e.key != key

variable {c now} {t : Nat} {key other : String} {time : Duration} {rows : List Json}

/-- Rows that are kept are found for as long as they are kept. -/
theorem find?_remember_self :
    (c.remember now key time rows).find? t key =
      if t < now + time.toNanos then some rows else none := by
  have hrest : List.find? (fun e => e.key == key && t < e.expiresAt)
      (c.filter fun e => now < e.expiresAt && e.key != key) = none := by
    rw [List.find?_eq_none]
    intro e he
    obtain ⟨_, hkey⟩ : now < e.expiresAt ∧ e.key ≠ key := by simpa using (List.mem_filter.1 he).2
    simp [hkey]
  by_cases ht : t < now + time.toNanos
  · simp [find?, remember, ht]
  · simp [find?, remember, ht, hrest]

/-- Keeping rows changes nothing under another key, from then on: what is let go has expired. -/
theorem find?_remember_of_ne (h : other ≠ key) (ht : now ≤ t) :
    (c.remember now key time rows).find? t other = c.find? t other := by
  have hkey : (key == other) = false := by simp [Ne.symm h]
  simp only [find?, remember, List.find?_cons, hkey, Bool.false_and, List.find?_filter]
  congr 2
  funext e
  by_cases he : e.key = other
  · by_cases hlater : t < e.expiresAt
    · have hnow : now < e.expiresAt := Nat.lt_of_le_of_lt ht hlater
      simp [he, h, hlater, hnow]
    · simp [hlater]
  · simp [he]

end RowCache

end RowQuery
