import Mathlib.Data.String.Basic
import RowQuery.Proofs.Timestamp
import RowQuery.Value.Text

/-!
# The texts of points in time are in the order of time

A text has the year first and the second last, each number with all its digits, so the first number
that differs decides (`padded_append_lt_iff`). A later day has a later date (`Date.before_ofDays`).
The part of a second has as many digits as it needs, and a shorter one goes on with the plus sign of
the zone, which stands before all digits and before the point. So texts are compared as the times
are (`compare_text`).
-/

namespace RowQuery.Timestamp

/-! ### Texts in order -/

section Digits

variable {a b s t : List Char}

theorem append_lt_append_iff (h : a.length = b.length) :
    a ++ s < b ++ t ↔ a < b ∨ a = b ∧ s < t := by
  induction a generalizing b with
  | nil =>
    obtain rfl := List.length_eq_zero_iff.1 h.symm
    simp
  | cons c a ih =>
    cases b with
    | nil => cases h
    | cons d b =>
      rw [List.cons_append, List.cons_append, List.cons_lt_cons_iff, List.cons_lt_cons_iff,
        ih (Nat.succ.inj h), List.cons.injEq]
      tauto

/-- What stands behind the shorter text is below all characters of the longer one. -/
theorem append_cons_lt_append_cons {z : Char} (h : a < b) (hz : ∀ c ∈ b, z < c) :
    a ++ z :: s < b ++ z :: t := by
  induction a generalizing b with
  | nil =>
    cases b with
    | nil => cases h
    | cons d b => exact List.cons_lt_cons_iff.2 (.inl (hz d List.mem_cons_self))
  | cons c a ih =>
    cases b with
    | nil => cases h
    | cons d b =>
      rw [List.cons_append, List.cons_append, List.cons_lt_cons_iff]
      rcases List.cons_lt_cons_iff.1 h with hcd | ⟨hcd, hab⟩
      · exact .inl hcd
      · exact .inr ⟨hcd, ih hab fun e he => hz e (.tail _ he)⟩

/-- Zeros behind texts that are filled up to one length change nothing in their order. -/
theorem lt_of_append_replicate_lt {z : Char} {i j : Nat} (hlen : a.length + i = b.length + j)
    (hz : ∀ c ∈ a, z ≤ c) (h : a ++ List.replicate i z < b ++ List.replicate j z) : a < b := by
  induction a generalizing b j with
  | nil =>
    cases b with
    | nil =>
      have hij : i = j := by simpa using hlen
      rw [hij] at h
      exact absurd h (List.lt_irrefl _)
    | cons d b => exact List.nil_lt_cons d b
  | cons c a ih =>
    obtain ⟨hc, ha⟩ := List.forall_mem_cons.1 hz
    cases b with
    | nil =>
      obtain ⟨j, rfl⟩ : ∃ k, j = k + 1 := ⟨a.length + i, by simp at hlen; omega⟩
      rw [List.nil_append, List.replicate_succ, List.cons_append, List.cons_lt_cons_iff] at h
      rcases h with hlt | ⟨rfl, h⟩
      · exact absurd hlt (not_lt.2 hc)
      · have hnil : a < [] := ih (by simp at hlen ⊢; omega) ha h
        cases hnil
    | cons d b =>
      rw [List.cons_append, List.cons_append, List.cons_lt_cons_iff] at h
      rw [List.cons_lt_cons_iff]
      exact h.imp_right fun ⟨hcd, h⟩ => ⟨hcd, ih (by simp at hlen; omega) ha h⟩

theorem ofDigitChars_cons_zero (c : Char) (cs : List Char) :
    Nat.ofDigitChars 10 (c :: cs) 0 =
      10 ^ cs.length * (c.toNat - 48) + Nat.ofDigitChars 10 cs 0 := by
  rw [Nat.ofDigitChars_cons, Nat.ofDigitChars_eq_ofDigitChars_zero, Nat.mul_zero, Nat.zero_add]
  rfl

theorem ofDigitChars_lt (h : ∀ c ∈ a, c.isDigit = true) :
    Nat.ofDigitChars 10 a 0 < 10 ^ a.length := by
  induction a with
  | nil => simp
  | cons c a ih =>
    obtain ⟨hc, ha⟩ := List.forall_mem_cons.1 h
    have hdigit := toNat_of_isDigit hc
    have hhead : 10 ^ a.length * (c.toNat - 48) ≤ 10 ^ a.length * 9 :=
      Nat.mul_le_mul_left _ (by omega)
    have htail := ih ha
    rw [ofDigitChars_cons_zero, List.length_cons, Nat.pow_succ]
    omega

/-- Digits of one number stand in the order of the numbers. -/
theorem lt_iff_ofDigitChars_lt (hlen : a.length = b.length) (ha : ∀ c ∈ a, c.isDigit = true)
    (hb : ∀ c ∈ b, c.isDigit = true) :
    a < b ↔ Nat.ofDigitChars 10 a 0 < Nat.ofDigitChars 10 b 0 := by
  induction a generalizing b with
  | nil =>
    obtain rfl := List.length_eq_zero_iff.1 hlen.symm
    simp
  | cons c a ih =>
    cases b with
    | nil => cases hlen
    | cons d b =>
      obtain ⟨hc, ha⟩ := List.forall_mem_cons.1 ha
      obtain ⟨hd, hb⟩ := List.forall_mem_cons.1 hb
      have hlen : a.length = b.length := Nat.succ.inj hlen
      have hc := toNat_of_isDigit hc
      have hd := toNat_of_isDigit hd
      have hva := ofDigitChars_lt ha
      have hvb := ofDigitChars_lt hb
      rw [List.cons_lt_cons_iff, ih hlen ha hb, ofDigitChars_cons_zero, ofDigitChars_cons_zero]
      rw [hlen] at hva ⊢
      generalize Nat.ofDigitChars 10 a 0 = x at *
      generalize Nat.ofDigitChars 10 b 0 = y at *
      generalize 10 ^ b.length = p at *
      have hlt : c < d ↔ c.toNat < d.toNat := Iff.rfl
      have heq : c = d ↔ c.toNat = d.toNat := Char.toNat_inj.symm
      rw [hlt, heq]
      -- the first digits decide, for what stands behind them is less than one of their units
      rcases Nat.lt_trichotomy c.toNat d.toNat with hcd | hcd | hcd
      · have hunit : p * (c.toNat - 48 + 1) ≤ p * (d.toNat - 48) :=
          Nat.mul_le_mul_left _ (by omega)
        rw [Nat.mul_add_one] at hunit
        exact iff_of_true (.inl hcd) (by omega)
      · simp [hcd]
      · have hunit : p * (d.toNat - 48 + 1) ≤ p * (c.toNat - 48) :=
          Nat.mul_le_mul_left _ (by omega)
        rw [Nat.mul_add_one] at hunit
        exact iff_of_false (by omega) (by omega)

end Digits

/-! ### Calendar -/

/-- The year of a day of an era. -/
def yearOfEra (day : Nat) : Nat := (day - day / 1460 + day / 36524 - day / 146096) / 365

/-- The first day of a year of an era. -/
def startOfYear (year : Nat) : Nat := 365 * year + year / 4 - year / 100

theorem yearOfEra_mono {m n : Nat} (h : m ≤ n) (hn : n < 146097) :
    yearOfEra m ≤ yearOfEra n := by
  refine Nat.div_le_div_right ?_
  have hcentury : m / 36524 ≤ n / 36524 := Nat.div_le_div_right h
  have hleap : n / 1460 ≤ m / 1460 + (n - m) := by
    obtain ⟨k, rfl⟩ := Nat.exists_eq_add_of_le h
    omega
  rcases Nat.lt_or_ge n 146096 with hlt | hlast
  · have hm : m / 146096 = 0 := Nat.div_eq_of_lt (by omega)
    have hn : n / 146096 = 0 := Nat.div_eq_of_lt hlt
    rw [hm, hn]
    have hself : n / 1460 ≤ n := Nat.div_le_self _ _
    generalize m / 1460 = a at *
    generalize n / 1460 = b at *
    omega
  · obtain rfl : n = 146096 := by omega
    rcases Nat.lt_or_eq_of_le h with hlt | rfl
    · have hm : m / 146096 = 0 := Nat.div_eq_of_lt hlt
      have hcentury : m / 36524 ≤ 3 := by omega
      have hdays : m - m / 1460 ≤ 145996 := by omega
      omega
    · rfl

namespace Date

/-- The date of a day of a year that starts in March. -/
def ofMarch (year : Int) (day : Nat) : Date :=
  let fromMarch := (5 * day + 2) / 153
  let month := if fromMarch < 10 then fromMarch + 3 else fromMarch - 9
  ⟨if month ≤ 2 then year + 1 else year, month, day - (153 * fromMarch + 2) / 5 + 1⟩

/-- Of two dates the first one is earlier. -/
def Before (d e : Date) : Prop :=
  d.year < e.year ∨ d.year = e.year ∧ (d.month < e.month ∨ d.month = e.month ∧ d.day < e.day)

/-- An era, a year of it and a day of that year, counted from March. -/
theorem exists_ofDays (days : Int) :
    ∃ (era : Int) (day : Nat), days + 719468 = era * 146097 + day ∧ day < 146097 ∧
      startOfYear (yearOfEra day) ≤ day ∧ day - startOfYear (yearOfEra day) ≤ 365 ∧
      yearOfEra day < 400 ∧
      ofDays days = ofMarch (era * 400 + yearOfEra day) (day - startOfYear (yearOfEra day)) := by
  have hlt : ((days + 719468) % 146097).toNat < 146097 := by omega
  obtain ⟨hyear, hfirst, hlast⟩ := yearOfEra_spec hlt
  exact ⟨(days + 719468) / 146097, ((days + 719468) % 146097).toNat, by omega, hlt, hfirst,
    Nat.sub_le_iff_le_add'.2 hlast, hyear, rfl⟩

/-- Counted on through the years, the months from March are those from January two on. -/
theorem month_ofMarch {day : Nat} (h : day ≤ 365) (year : Int) :
    12 * (ofMarch year day).year + (ofMarch year day).month =
        12 * year + ((5 * day + 2) / 153 + 3 : Nat) ∧
      1 ≤ (ofMarch year day).month ∧ (ofMarch year day).month ≤ 12 := by
  have hlast : (5 * day + 2) / 153 ≤ 11 := by omega
  simp only [ofMarch]
  generalize (5 * day + 2) / 153 = fromMarch at *
  rcases Nat.lt_or_ge fromMarch 10 with hlate | hearly
  · have hmonth : ¬ fromMarch + 3 ≤ 2 := by omega
    simp only [if_pos hlate, if_neg hmonth, true_and]
    omega
  · have hmonth : fromMarch - 9 ≤ 2 := by omega
    simp only [if_neg (Nat.not_lt.2 hearly), if_pos hmonth]
    omega

theorem day_ofMarch (year : Int) (day : Nat) : (ofMarch year day).day ≤ 31 := by
  simp only [ofMarch]
  omega

theorem before_ofMarch {y z : Int} {m n : Nat} (hm : m ≤ 365) (hn : n ≤ 365)
    (h : y < z ∨ y = z ∧ m < n) : (ofMarch y m).Before (ofMarch z n) := by
  obtain ⟨hmonth, hfirst, hlast⟩ := month_ofMarch hm y
  obtain ⟨hmonth', hfirst', hlast'⟩ := month_ofMarch hn z
  have hday : (ofMarch y m).day = m - (153 * ((5 * m + 2) / 153) + 2) / 5 + 1 := rfl
  have hday' : (ofMarch z n).day = n - (153 * ((5 * n + 2) / 153) + 2) / 5 + 1 := rfl
  simp only [Before, hday, hday']
  omega

theorem month_le_and_day_le (days : Int) :
    (ofDays days).month ≤ 12 ∧ (ofDays days).day ≤ 31 := by
  obtain ⟨_, _, _, _, _, hday, _, hdate⟩ := exists_ofDays days
  rw [hdate]
  exact ⟨(month_ofMarch hday _).2.2, day_ofMarch _ _⟩

theorem before_ofDays {m n : Int} (h : m < n) : (ofDays m).Before (ofDays n) := by
  obtain ⟨era, day, hm, hlt, hstart, hday, hyear, heq⟩ := exists_ofDays m
  obtain ⟨era', day', hn, hlt', hstart', hday', hyear', heq'⟩ := exists_ofDays n
  rw [heq, heq']
  refine before_ofMarch hday hday' ?_
  rcases Int.lt_or_le era era' with hera | hera
  · exact .inl (by omega)
  · obtain rfl : era = era' := by omega
    have hmono : yearOfEra day ≤ yearOfEra day' := yearOfEra_mono (by omega) hlt'
    rcases Nat.lt_or_eq_of_le hmono with hless | hsame
    · exact .inl (by omega)
    · rw [hsame] at hstart ⊢
      exact .inr (by omega)

end Date

/-! ### Numbers in a text -/

section Padded

variable {width m n : Nat} {s t : List Char}

theorem padded_append_lt_iff (hwidth : 0 < width) (hm : m < 10 ^ width) (hn : n < 10 ^ width) :
    padded width m ++ s < padded width n ++ t ↔ m < n ∨ m = n ∧ s < t := by
  have hlen : (padded width m).length = (padded width n).length := by
    rw [length_padded hwidth hm, length_padded hwidth hn]
  have hinj : padded width m = padded width n ↔ m = n := by
    have hvalue (k : Nat) : Nat.ofDigitChars 10 (padded width k) 0 = k := ofDigitChars_padded
    exact ⟨fun h => by rw [← hvalue m, h, hvalue], congrArg _⟩
  rw [append_lt_append_iff hlen,
    lt_iff_ofDigitChars_lt hlen isDigit_of_mem_padded isDigit_of_mem_padded,
    ofDigitChars_padded, ofDigitChars_padded, hinj]

/-- A fraction is a point and at most nine digits. -/
theorem fractionText_shape (hn : 0 < n) (h : n < 1000000000) :
    ∃ ds, fractionText n = '.' :: ds ∧ ds.length ≤ 9 ∧ ∀ c ∈ ds, c.isDigit = true := by
  rw [fractionText, if_neg hn.ne']
  split_ifs with hmillis hmicros
  · exact ⟨_, rfl, by rw [length_padded (by decide) (by omega)]; decide, isDigit_of_mem_padded⟩
  · exact ⟨_, rfl, by rw [length_padded (by decide) (by omega)]; decide, isDigit_of_mem_padded⟩
  · exact ⟨_, rfl, by rw [length_padded (by decide) h], isDigit_of_mem_padded⟩

theorem plus_lt_of_mem_fractionText (h : n < 1000000000) : ∀ c ∈ fractionText n, '+' < c := by
  intro c hc
  rcases Nat.eq_zero_or_pos n with rfl | hn
  · cases hc
  obtain ⟨ds, hds, _, hdigit⟩ := fractionText_shape hn h
  rw [hds] at hc
  rcases List.mem_cons.1 hc with rfl | hc
  · decide
  · exact Nat.lt_of_lt_of_le (by decide) (toNat_of_isDigit (hdigit c hc)).1

/-- A fraction ends early only where zeros would follow, so a smaller one is before a larger one. -/
theorem fractionText_lt (hmn : m < n) (hn : n < 1000000000) :
    fractionText m < fractionText n := by
  obtain ⟨es, hes, helen, hedigit⟩ := fractionText_shape (Nat.zero_lt_of_lt hmn) hn
  rcases Nat.eq_zero_or_pos m with rfl | hm
  · rw [hes]
    exact List.nil_lt_cons _ _
  obtain ⟨ds, hds, hdlen, hddigit⟩ := fractionText_shape hm (hmn.trans hn)
  have hzero : ∀ c ∈ ds, '0' ≤ c := fun c hc => (toNat_of_isDigit (hddigit c hc)).1
  have hfilled {k : Nat} {cs : List Char} (hk : k < 1000000000) (hcs : fractionText k = '.' :: cs) :
      Nat.ofDigitChars 10 (cs ++ List.replicate (9 - cs.length) '0') 0 = k := by
    have hvalue := nanos_of_fractionText hk
    rw [hcs, List.tail_cons, List.length_cons, Nat.add_sub_add_right 9 1, Nat.mul_comm] at hvalue
    rw [Nat.ofDigitChars_append, Nat.ofDigitChars_replicate_zero, hvalue]
  have hdigits {cs : List Char} {i : Nat} (hcs : ∀ c ∈ cs, c.isDigit = true) :
      ∀ c ∈ cs ++ List.replicate i '0', c.isDigit = true :=
    List.forall_mem_append.2 ⟨hcs, fun c hc => List.eq_of_mem_replicate hc ▸ rfl⟩
  rw [hds, hes, List.cons_lt_cons_self]
  refine lt_of_append_replicate_lt (i := 9 - ds.length) (j := 9 - es.length) (by omega) hzero ?_
  rw [lt_iff_ofDigitChars_lt _ (hdigits hddigit) (hdigits hedigit), hfilled (hmn.trans hn) hds,
    hfilled hn hes]
  · exact hmn
  · simp
    omega

end Padded

/-! ### Points in time -/

/-- The time in nanoseconds from the start of 1970. -/
def instant (t : Timestamp) : Int := t.seconds * 1000000000 + t.nanos

/-- A point in time outside leap seconds, in a year of four digits. -/
def Standard (t : Timestamp) : Prop :=
  0 ≤ t.date.year ∧ t.date.year ≤ 9999 ∧ t.nanos < 1000000000

instance (t : Timestamp) : Decidable t.Standard := by unfold Standard; infer_instance

variable {t u : Timestamp}

theorem toList_text (h : t.Standard) (zone : String) :
    (t.text zone).toList =
      padded 4 t.date.year.toNat ++ '-' :: (padded 2 t.date.month ++ '-' :: (padded 2 t.date.day ++
        'T' :: (padded 2 (t.secondOfDay / 3600) ++ ':' :: (padded 2 (t.secondOfDay / 60 % 60) ++
          ':' :: (padded 2 (t.secondOfDay % 60) ++ (fractionText t.nanos ++ zone.toList)))))) := by
  obtain ⟨hfirst, hlast, hnanos⟩ := h
  rw [text, String.toList_ofList, yearText, if_pos ⟨hfirst, hlast⟩, Nat.div_eq_of_lt hnanos,
    Nat.mod_eq_of_lt hnanos]
  simp

/-- Month, day and hour have two digits at most. -/
theorem parts_lt (t : Timestamp) :
    t.date.month < 100 ∧ t.date.day < 100 ∧ t.secondOfDay / 3600 < 100 := by
  obtain ⟨hmonth, hday⟩ := Date.month_le_and_day_le (t.seconds / 86400)
  have hsecond := t.secondOfDay_lt
  rw [date]
  omega

/-- An earlier time has the lower text. -/
theorem text_lt_text (ht : t.Standard) (hu : u.Standard) (h : t.instant < u.instant) :
    t.text Value.offset < u.text Value.offset := by
  obtain ⟨hmonth, hday, hhour⟩ := t.parts_lt
  obtain ⟨hmonth', hday', hhour'⟩ := u.parts_lt
  rw [String.lt_iff_toList_lt, toList_text ht, toList_text hu]
  obtain ⟨hfirst, hlast, hnanos⟩ := ht
  obtain ⟨hfirst', hlast', hnanos'⟩ := hu
  rw [padded_append_lt_iff (by decide) (by omega) (by omega), List.cons_lt_cons_self,
    padded_append_lt_iff (by decide) hmonth hmonth', List.cons_lt_cons_self,
    padded_append_lt_iff (by decide) hday hday', List.cons_lt_cons_self,
    padded_append_lt_iff (by decide) hhour hhour', List.cons_lt_cons_self,
    padded_append_lt_iff (by decide) (by omega) (by omega), List.cons_lt_cons_self,
    padded_append_lt_iff (by decide) (by omega) (by omega)]
  rw [instant, instant] at h
  -- the day decides, then the second of the day, then the part of the second
  rcases Int.lt_or_le (t.seconds / 86400) (u.seconds / 86400) with hdays | hdays
  · rcases Date.before_ofDays hdays with hyear | ⟨hyear, hmonth | ⟨hmonth, hday⟩⟩
    · exact .inl ((Int.toNat_lt_toNat (hfirst.trans_lt hyear)).2 hyear)
    · exact .inr ⟨congrArg Int.toNat hyear, .inl hmonth⟩
    · exact .inr ⟨congrArg Int.toNat hyear, .inr ⟨hmonth, .inl hday⟩⟩
  · have hdays : t.seconds / 86400 = u.seconds / 86400 := by omega
    have hdate : t.date = u.date := congrArg Date.ofDays hdays
    rw [hdate]
    refine .inr ⟨rfl, .inr ⟨rfl, .inr ⟨rfl, ?_⟩⟩⟩
    rcases Nat.lt_or_ge t.secondOfDay u.secondOfDay with hsecond | hsecond
    · have hclock : t.secondOfDay / 3600 < u.secondOfDay / 3600 ∨
          t.secondOfDay / 3600 = u.secondOfDay / 3600 ∧
            (t.secondOfDay / 60 % 60 < u.secondOfDay / 60 % 60 ∨
              t.secondOfDay / 60 % 60 = u.secondOfDay / 60 % 60 ∧
                t.secondOfDay % 60 < u.secondOfDay % 60) := by
        omega
      exact hclock.imp_right (And.imp_right (Or.imp_right (And.imp_right .inl)))
    · have hsecond : t.secondOfDay = u.secondOfDay := by
        rw [secondOfDay, secondOfDay] at *
        omega
      have hless : t.nanos < u.nanos := by
        rw [secondOfDay, secondOfDay] at hsecond
        omega
      rw [hsecond]
      refine .inr ⟨rfl, .inr ⟨rfl, .inr ⟨rfl, ?_⟩⟩⟩
      have hzone : Value.offset.toList = '+' :: "00:00".toList := rfl
      rw [hzone]
      exact append_cons_lt_append_cons (fractionText_lt hless hnanos')
        (plus_lt_of_mem_fractionText hnanos')

/-- The texts are in the order of time, and only one time has a text. -/
theorem compare_text (ht : t.Standard) (hu : u.Standard) :
    compare (t.text Value.offset) (u.text Value.offset) = compare t.instant u.instant := by
  rcases Int.lt_trichotomy t.instant u.instant with h | h | h
  · rw [compare_lt_iff_lt.2 h, compare_lt_iff_lt.2 (text_lt_text ht hu h)]
  · have hnanos := ht.2.2
    have hnanos' := hu.2.2
    obtain ⟨hseconds, hparts⟩ : t.seconds = u.seconds ∧ t.nanos = u.nanos := by
      rw [instant, instant] at h
      omega
    have htext : t.text Value.offset = u.text Value.offset := by
      simp only [text, date, secondOfDay, hseconds, hparts]
    rw [compare_eq_iff_eq.2 h, compare_eq_iff_eq.2 htext]
  · rw [compare_gt_iff_gt.2 h, compare_gt_iff_gt.2 (text_lt_text hu ht h)]

end RowQuery.Timestamp
