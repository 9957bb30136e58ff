import Mathlib.Algebra.Group.Nat.Defs
import Mathlib.Tactic.SplitIfs
import RowQuery.Proofs.Json.Numeral
import RowQuery.Timestamp

/-!
# A point in time is known by its text

The day of a date is counted back (`Date.toDays_ofDays`), each number of a text has its value, and a
second past 59 is a leap second. So no two points in time share a text (`text_injective`).
-/

namespace RowQuery.Timestamp

/-! ### Calendar -/

/-- The year of a day of an era begins on that day or before it, and less than 366 days before. -/
theorem yearOfEra_spec {day : Nat} (h : day < 146097) :
    let year := (day - day / 1460 + day / 36524 - day / 146096) / 365
    year < 400 ∧ 365 * year + year / 4 - year / 100 ≤ day ∧
      day ≤ 365 * year + year / 4 - year / 100 + 365 := by
  rcases Nat.lt_or_ge day 146096 with hlt | hge
  · -- a day counted from the start of its century
    obtain ⟨c, r, rfl, hr⟩ : ∃ c r, day = 36524 * c + r ∧ r < 36524 :=
      ⟨day / 36524, day % 36524, by omega, by omega⟩
    obtain ⟨t, ht⟩ : ∃ t, (24 * c + r) / 1460 = t := ⟨_, rfl⟩
    obtain ⟨y, hy⟩ : ∃ y, (r - t) / 365 = y := ⟨_, rfl⟩
    have hyear : (36524 * c + r - (36524 * c + r) / 1460 + (36524 * c + r) / 36524 -
        (36524 * c + r) / 146096) / 365 = 100 * c + y := by
      have h4 : (36524 * c + r) / 1460 = 25 * c + t := by omega
      have h100 : (36524 * c + r) / 36524 = c := by omega
      have h400 : (36524 * c + r) / 146096 = 0 := by omega
      rw [h4, h100, h400]
      omega
    have hleap : y / 4 ≤ t ∧ t ≤ y / 4 + 1 := by omega
    have hlast : y < 100 := by omega
    have h4 : (100 * c + y) / 4 = 25 * c + y / 4 := by omega
    have h100 : (100 * c + y) / 100 = c := by omega
    dsimp only
    rw [hyear, h4, h100]
    omega
  · obtain rfl : day = 146096 := by omega
    decide

/-- The count of days of a date. -/
def Date.toDays (d : Date) : Int :=
  let fromMarch := if d.month ≤ 2 then d.month + 9 else d.month - 3
  let year := if d.month ≤ 2 then d.year - 1 else d.year
  let yearOfEra := (year % 400).toNat
  let dayOfYear := (153 * fromMarch + 2) / 5 + (d.day - 1)
  year / 400 * 146097 + (365 * yearOfEra + yearOfEra / 4 - yearOfEra / 100 + dayOfYear : Nat) -
    719468

theorem Date.toDays_ofDays (days : Int) : (Date.ofDays days).toDays = days := by
  obtain ⟨era, dayOfEra, hdays, hera, hlt⟩ : ∃ (era : Int) (dayOfEra : Nat),
      days + 719468 = era * 146097 + dayOfEra ∧ (days + 719468) / 146097 = era ∧
        dayOfEra < 146097 :=
    ⟨(days + 719468) / 146097, ((days + 719468) % 146097).toNat, by omega, rfl, by omega⟩
  have hday : ((days + 719468) % 146097).toNat = dayOfEra := by omega
  obtain ⟨hyear, hfirst, hlast⟩ := yearOfEra_spec hlt
  simp only [Date.ofDays, hera, hday]
  generalize (dayOfEra - dayOfEra / 1460 + dayOfEra / 36524 - dayOfEra / 146096) / 365 = year at *
  obtain ⟨dayOfYear, rfl⟩ : ∃ n, dayOfEra = 365 * year + year / 4 - year / 100 + n :=
    ⟨dayOfEra - (365 * year + year / 4 - year / 100), by omega⟩
  rw [Nat.add_sub_cancel_left]
  have hmonth : (5 * dayOfYear + 2) / 153 ≤ 11 := by omega
  have hstart : (153 * ((5 * dayOfYear + 2) / 153) + 2) / 5 ≤ dayOfYear := by omega
  generalize (5 * dayOfYear + 2) / 153 = fromMarch at *
  have hera' : (era * 400 + (year : Int)) / 400 = era := by omega
  have hyear' : ((era * 400 + (year : Int)) % 400).toNat = year := by omega
  -- the months from March on, and the two that stand in the next year
  rcases Nat.lt_or_ge fromMarch 10 with hm | hm
  · have hlate : ¬ fromMarch + 3 ≤ 2 := by omega
    simp only [Date.toDays, if_pos hm, if_neg hlate, hera', hyear', Nat.add_sub_cancel]
    omega
  · have hearly : fromMarch - 9 ≤ 2 := by omega
    have hback : fromMarch - 9 + 9 = fromMarch := by omega
    simp only [Date.toDays, if_neg (Nat.not_lt.2 hm), if_pos hearly, Int.add_sub_cancel, hera',
      hyear', hback, Nat.add_sub_cancel]
    omega

theorem Date.ofDays_injective : Function.Injective Date.ofDays :=
  Function.LeftInverse.injective Date.toDays_ofDays

/-! ### Numbers in a text -/

section Padded

variable {width m n : Nat} {s t : List Char}

theorem padded_eq : padded width n =
    List.replicate (width - (Nat.toDigits 10 n).length) '0' ++ Nat.toDigits 10 n := by
  rw [padded, Nat.toList_repr]

theorem ofDigitChars_padded : Nat.ofDigitChars 10 (padded width n) 0 = n := by
  rw [padded_eq, Nat.ofDigitChars_append, Nat.ofDigitChars_replicate_zero, Nat.mul_zero,
    Nat.ofDigitChars_toDigits (by decide) (by decide)]

theorem isDigit_of_mem_padded : ∀ c ∈ padded width n, c.isDigit = true := by
  intro c hc
  rw [padded_eq, List.mem_append] at hc
  rcases hc with hzero | hdigit
  · rw [List.eq_of_mem_replicate hzero]
    rfl
  · exact isDigit_of_mem_toDigits n c hdigit

/-- What a text starts with that does not go on with a digit. -/
def NoDigit (s : List Char) : Prop := ∀ c ∈ s.head?, c.isDigit = false

theorem noDigit_cons {c : Char} (hc : c.isDigit = false) : NoDigit (c :: s) := by
  rintro _ ⟨⟩
  exact hc

theorem takeWhile_padded_append (hs : NoDigit s) :
    (padded width n ++ s).takeWhile Char.isDigit = padded width n := by
  rw [List.takeWhile_append_of_pos isDigit_of_mem_padded]
  cases s with
  | nil => rw [List.takeWhile_nil, List.append_nil]
  | cons c s =>
    rw [List.takeWhile_cons_of_neg (by simp [hs c rfl]), List.append_nil]

theorem padded_append_inj (hs : NoDigit s) (ht : NoDigit t)
    (h : padded width m ++ s = padded width n ++ t) : m = n ∧ s = t := by
  have hdigits := congrArg (List.takeWhile Char.isDigit) h
  rw [takeWhile_padded_append hs, takeWhile_padded_append ht] at hdigits
  have hvalue := congrArg (Nat.ofDigitChars 10 · 0) hdigits
  simp only [ofDigitChars_padded] at hvalue
  exact ⟨hvalue, List.append_cancel_left (hdigits ▸ h)⟩

theorem padded_append_cons_inj {c : Char} (hc : c.isDigit = false)
    (h : padded width m ++ c :: s = padded width n ++ c :: t) : m = n ∧ s = t := by
  obtain ⟨hvalue, hrest⟩ := padded_append_inj (noDigit_cons hc) (noDigit_cons hc) h
  exact ⟨hvalue, (List.cons.inj hrest).2⟩

theorem padded_append_ne_cons {c : Char} (hc : c.isDigit = false) :
    padded width n ++ s ≠ c :: t := by
  intro h
  cases hp : padded width n with
  | nil =>
    have hlen := congrArg List.length (padded_eq.symm.trans hp)
    have hpos := Nat.length_toDigits_pos (b := 10) (n := n)
    rw [List.length_append, List.length_nil] at hlen
    omega
  | cons d ds =>
    rw [hp] at h
    have hmem : d ∈ padded width n := hp ▸ List.mem_cons_self
    have hd := isDigit_of_mem_padded d hmem
    rw [List.cons_append, List.cons.injEq] at h
    rw [h.1, hc] at hd
    cases hd

theorem length_padded (hwidth : 0 < width) (h : n < 10 ^ width) :
    (padded width n).length = width := by
  have hle := (Nat.length_toDigits_le_iff (by decide) hwidth).2 h
  rw [padded_eq, List.length_append, List.length_replicate]
  omega

end Padded

theorem yearText_append_inj {y z : Int} {s t : List Char} (hs : NoDigit s) (ht : NoDigit t)
    (h : yearText y ++ s = yearText z ++ t) : y = z ∧ s = t := by
  have hsign (y : Int) : (if y < 0 then '-' else '+').isDigit = false := by
    split <;> rfl
  by_cases hy : 0 ≤ y ∧ y ≤ 9999 <;> by_cases hz : 0 ≤ z ∧ z ≤ 9999
  · rw [yearText, yearText, if_pos hy, if_pos hz] at h
    obtain ⟨hyear, hrest⟩ := padded_append_inj hs ht h
    exact ⟨by omega, hrest⟩
  · rw [yearText, yearText, if_pos hy, if_neg hz] at h
    exact absurd h (padded_append_ne_cons (hsign z))
  · rw [yearText, yearText, if_neg hy, if_pos hz] at h
    exact absurd h.symm (padded_append_ne_cons (hsign y))
  · rw [yearText, yearText, if_neg hy, if_neg hz, List.cons_append, List.cons_append,
      List.cons.injEq] at h
    obtain ⟨hyear, hrest⟩ := padded_append_inj hs ht h.2
    have hmark := h.1
    split_ifs at hmark with hneg hneg' hneg'
    · exact ⟨by omega, hrest⟩
    · cases hmark
    · cases hmark
    · exact ⟨by omega, hrest⟩

/-- The digits after the point, taken at their place, count nanoseconds. -/
theorem nanos_of_fractionText {nanos : Nat} (h : nanos < 1000000000) :
    Nat.ofDigitChars 10 (fractionText nanos).tail 0 * 10 ^ (10 - (fractionText nanos).length) =
      nanos := by
  by_cases hzero : nanos = 0
  · rw [hzero]
    rfl
  by_cases hmillis : nanos % 1000000 = 0
  · rw [fractionText, if_neg hzero, if_pos hmillis, List.tail_cons, ofDigitChars_padded,
      List.length_cons, length_padded (by decide) (by omega)]
    omega
  by_cases hmicros : nanos % 1000 = 0
  · rw [fractionText, if_neg hzero, if_neg hmillis, if_pos hmicros, List.tail_cons,
      ofDigitChars_padded, List.length_cons, length_padded (by decide) (by omega)]
    omega
  · rw [fractionText, if_neg hzero, if_neg hmillis, if_neg hmicros, List.tail_cons,
      ofDigitChars_padded, List.length_cons, length_padded (by decide) h, Nat.sub_self,
      Nat.pow_zero, Nat.mul_one]

theorem noDigit_fractionText_append {nanos : Nat} {s : List Char} (hs : NoDigit s) :
    NoDigit (fractionText nanos ++ s) := by
  rw [fractionText]
  split_ifs
  · exact hs
  all_goals exact noDigit_cons rfl

/-! ### Points in time -/

theorem secondOfDay_lt (t : Timestamp) : t.secondOfDay < 86400 := by
  have hlt := Int.emod_lt_of_pos t.seconds (show 0 < (86400 : Int) by decide)
  have hnonneg := Int.emod_nonneg t.seconds (show (86400 : Int) ≠ 0 by decide)
  rw [secondOfDay]
  omega

/-- A point in time is given by its day, the second of the day and the nanoseconds. -/
theorem eq_of_parts {t u : Timestamp} (hdate : t.date = u.date)
    (hsecond : t.secondOfDay = u.secondOfDay) (hnanos : t.nanos = u.nanos) : t = u := by
  have hday : t.seconds / 86400 = u.seconds / 86400 := Date.ofDays_injective hdate
  have hseconds : t.seconds = u.seconds := by
    rw [secondOfDay, secondOfDay] at hsecond
    omega
  obtain ⟨seconds, nanos, ht⟩ := t
  obtain ⟨seconds', nanos', hu⟩ := u
  cases hseconds
  cases hnanos
  rfl

/-- The 60th second is the leap second, so seconds and nanoseconds are told apart. -/
theorem second_inj {t u : Timestamp}
    (hsecond : t.secondOfDay % 60 + t.nanos / 1000000000 =
      u.secondOfDay % 60 + u.nanos / 1000000000)
    (hfraction : t.nanos % 1000000000 = u.nanos % 1000000000) :
    t.secondOfDay % 60 = u.secondOfDay % 60 ∧ t.nanos = u.nanos := by
  have hleap (t : Timestamp) : t.nanos / 1000000000 = 0 ∨
      t.nanos / 1000000000 = 1 ∧ t.secondOfDay % 60 = 59 := by
    obtain ⟨-, -, hnanos, hlast⟩ := t.valid
    rw [secondOfDay]
    omega
  have ht := hleap t
  have hu := hleap u
  omega

/-- No two points in time have the same text. -/
theorem text_injective {zone : String} (hzone : NoDigit zone.toList) :
    Function.Injective (text zone) := by
  intro t u h
  have hchars := String.ofList_inj.1 h
  simp only [List.append_assoc, List.cons_append] at hchars
  obtain ⟨hyear, hrest⟩ := yearText_append_inj (noDigit_cons rfl) (noDigit_cons rfl) hchars
  obtain ⟨hmonth, hrest⟩ := padded_append_cons_inj rfl (List.cons.inj hrest).2
  obtain ⟨hday, hrest⟩ := padded_append_cons_inj rfl hrest
  obtain ⟨hhour, hrest⟩ := padded_append_cons_inj rfl hrest
  obtain ⟨hminute, hrest⟩ := padded_append_cons_inj rfl hrest
  obtain ⟨hsecond, hrest⟩ := padded_append_inj (noDigit_fractionText_append hzone)
    (noDigit_fractionText_append hzone) hrest
  have hfraction : t.nanos % 1000000000 = u.nanos % 1000000000 := by
    have hdigits := List.append_cancel_right hrest
    rw [← nanos_of_fractionText (Nat.mod_lt t.nanos (by decide)), hdigits,
      nanos_of_fractionText (Nat.mod_lt u.nanos (by decide))]
  obtain ⟨hsecond, hnanos⟩ := second_inj hsecond hfraction
  have hdate : t.date = u.date := by
    generalize t.date = d at *
    generalize u.date = e at *
    cases d
    cases e
    congr
  have ht := t.secondOfDay_lt
  have hu := u.secondOfDay_lt
  exact eq_of_parts hdate (by omega) hnanos

end RowQuery.Timestamp
