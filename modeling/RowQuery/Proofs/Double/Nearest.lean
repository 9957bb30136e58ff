import RowQuery.Double.Rounding
import RowQuery.Proofs.Double.Numeral

/-!
# The number nearest to a quotient

A quotient is rounded to the magnitude in whose interval it lies (`roundsTo_nearest`). So rounding
does not turn the order of whole numbers round (`key_ofInt_mono`), and two different ones that are
rounded to one number are both 2^53 or more (`two_pow_le_of_ofInt_eq`).
-/

namespace RowQuery

/-- The rounded quotient is half a unit away at most, and less than that if it is odd. -/
theorem roundHalfEven_bounds (num : Nat) {den : Nat} (hden : 0 < den) :
    (2 * roundHalfEven num den - 1 : ℚ) ≤ 2 * (num / den) ∧
      2 * (num / den) ≤ (2 * roundHalfEven num den + 1 : ℚ) ∧
      (roundHalfEven num den % 2 = 1 → (2 * roundHalfEven num den - 1 : ℚ) < 2 * (num / den) ∧
        2 * (num / den) < (2 * roundHalfEven num den + 1 : ℚ)) := by
  have hden' : (0 : ℚ) < den := by exact_mod_cast hden
  have hwhole : 2 * roundHalfEven num den * den ≤ 2 * num + den ∧
      2 * num ≤ 2 * roundHalfEven num den * den + den ∧
      (roundHalfEven num den % 2 = 1 → 2 * roundHalfEven num den * den < 2 * num + den ∧
        2 * num < 2 * roundHalfEven num den * den + den) := by
    have hdiv := Nat.div_add_mod' num den
    have hmod := Nat.mod_lt num hden
    have hnext : 2 * (num / den + 1) * den = 2 * (num / den * den) + 2 * den := by ring
    have hsame : 2 * (num / den) * den = 2 * (num / den * den) := by ring
    simp only [roundHalfEven]
    split_ifs with hlow hhigh
    · omega
    · omega
    · rcases Nat.mod_two_eq_zero_or_one (num / den) with hq | hq <;> rw [hq]
      · rw [Nat.add_zero]
        omega
      · omega
  generalize roundHalfEven num den = r at *
  rw [← mul_div_assoc, le_div_iff₀ hden', div_le_iff₀ hden', lt_div_iff₀ hden',
    div_lt_iff₀ hden']
  obtain ⟨hbelow, habove, hodd⟩ := hwhole
  have hbelow' : (2 * r * den : ℚ) ≤ 2 * num + den := by exact_mod_cast hbelow
  have habove' : (2 * num : ℚ) ≤ 2 * r * den + den := by exact_mod_cast habove
  refine ⟨by linarith, by linarith, fun h => ?_⟩
  have hbelow' : (2 * r * den : ℚ) < 2 * num + den := by exact_mod_cast (hodd h).1
  have habove' : (2 * num : ℚ) < 2 * r * den + den := by exact_mod_cast (hodd h).2
  exact ⟨by linarith, by linarith⟩

section

variable {num den : Nat} (hden : 0 < den)

include hden

theorem scaleDown_div (num : Nat) (e : Int) :
    0 < (scaleDown num den e).2 ∧
      ((scaleDown num den e).1 / (scaleDown num den e).2 : ℚ) * 2 ^ e = num / den := by
  obtain ⟨hpos, hscale⟩ := Double.scaleDown_mul num hden e
  have hden' : (den : ℚ) ≠ 0 := by exact_mod_cast hden.ne'
  have hpos' : ((scaleDown num den e).2 : ℚ) ≠ 0 := by exact_mod_cast hpos.ne'
  refine ⟨hpos, ?_⟩
  rw [div_mul_eq_mul_div, div_eq_div_iff hpos' hden']
  linear_combination hscale

/-- The logarithms of a quotient's parts give its own up to one place. -/
theorem log2_sub_bounds (hnum : 0 < num) :
    (2 : ℚ) ^ ((num.log2 : ℤ) - den.log2 - 1) ≤ num / den ∧
      (num / den : ℚ) < 2 ^ ((num.log2 : ℤ) - den.log2 + 1) := by
  have hden' : (0 : ℚ) < den := by exact_mod_cast hden
  have hnlow : (2 : ℚ) ^ (num.log2 : ℤ) ≤ num := by exact_mod_cast Nat.log2_self_le hnum.ne'
  have hnhigh : (num : ℚ) < 2 ^ (num.log2 + 1 : ℤ) := by exact_mod_cast Nat.lt_log2_self
  have hdlow : (2 : ℚ) ^ (den.log2 : ℤ) ≤ den := by exact_mod_cast Nat.log2_self_le hden.ne'
  have hdhigh : (den : ℚ) < 2 ^ (den.log2 + 1 : ℤ) := by exact_mod_cast Nat.lt_log2_self
  constructor
  · rw [le_div_iff₀ hden']
    calc (2 : ℚ) ^ ((num.log2 : ℤ) - den.log2 - 1) * den
        ≤ 2 ^ ((num.log2 : ℤ) - den.log2 - 1) * 2 ^ (den.log2 + 1 : ℤ) :=
          mul_le_mul_of_nonneg_left hdhigh.le (by positivity)
      _ = 2 ^ (num.log2 : ℤ) := by
          rw [← zpow_add₀ two_ne_zero]
          congr 1
          ring
      _ ≤ num := hnlow
  · rw [div_lt_iff₀ hden']
    calc (num : ℚ) < 2 ^ (num.log2 + 1 : ℤ) := hnhigh
      _ = 2 ^ ((num.log2 : ℤ) - den.log2 + 1) * 2 ^ (den.log2 : ℤ) := by
          rw [← zpow_add₀ two_ne_zero]
          congr 1
          ring
      _ ≤ 2 ^ ((num.log2 : ℤ) - den.log2 + 1) * den :=
          mul_le_mul_of_nonneg_left hdlow (by positivity)

/-- No more than `digits` binary digits lie above the last place, and no fewer unless it is the
least one. -/
theorem lastPlace_bounds (hnum : 0 < num) (digits : Nat) (least : Int) :
    least ≤ lastPlace digits least num den ∧
      (num / den : ℚ) < 2 ^ (digits + lastPlace digits least num den) ∧
      (lastPlace digits least num den = least ∨
        (2 : ℚ) ^ (digits - 1 + lastPlace digits least num den) ≤ num / den) := by
  obtain ⟨e, he⟩ : ∃ e : Int, e = (num.log2 : Int) - den.log2 - digits := ⟨_, rfl⟩
  obtain ⟨hlow, hhigh⟩ := log2_sub_bounds hden hnum
  have hscaled : 1 <<< digits ≤ (scaleDown num den e).1 / (scaleDown num den e).2 ↔
      (2 : ℚ) ^ (digits + e) ≤ num / den := by
    obtain ⟨hpos, hscale⟩ := scaleDown_div hden num e
    have hpos' : (0 : ℚ) < (scaleDown num den e).2 := by exact_mod_cast hpos
    have hpow : (0 : ℚ) < 2 ^ e := by positivity
    rw [← hscale, zpow_add₀ two_ne_zero, mul_le_mul_iff_of_pos_right hpow, le_div_iff₀ hpos',
      Nat.le_div_iff_mul_le hpos, Nat.one_shiftLeft, zpow_natCast]
    norm_cast
  obtain ⟨f, hf, hflow, hfhigh⟩ : ∃ f, lastPlace digits least num den = max least f ∧
      (2 : ℚ) ^ (digits - 1 + f) ≤ num / den ∧ (num / den : ℚ) < 2 ^ (digits + f) := by
    rw [lastPlace, ← he]
    dsimp only
    split_ifs with h
    · refine ⟨e + 1, rfl, ?_, ?_⟩
      · rw [show (digits - 1 + (e + 1) : ℤ) = digits + e by ring]
        exact hscaled.1 h
      · rwa [show (digits + (e + 1) : ℤ) = num.log2 - den.log2 + 1 by omega]
    · refine ⟨e, rfl, ?_, not_le.1 fun hle => h (hscaled.2 hle)⟩
      rwa [show (digits - 1 + e : ℤ) = num.log2 - den.log2 - 1 by omega]
  rw [hf]
  rcases le_total f least with hle | hle
  · rw [max_eq_left hle]
    have hpow : (2 : ℚ) ^ (digits + f) ≤ 2 ^ (digits + least) :=
      zpow_le_zpow_right₀ one_le_two (by omega)
    exact ⟨le_rfl, hfhigh.trans_le hpow, .inl rfl⟩
  · rw [max_eq_right hle]
    exact ⟨hle, hfhigh, .inr hflow⟩

end

namespace Double

/-! ### The parts of a number -/

section

variable (negative : Bool) {m : Nat} (hm : m < signBit)

include hm

theorem toNat_bits_make :
    (make negative m).bits.toNat = m + if negative then signBit else 0 := by
  rw [make, UInt64.toNat_ofNat', Nat.mod_eq_of_lt]
  simp only [signBit] at *
  split <;> omega

theorem magnitude_make : (make negative m).magnitude = m := by
  rw [magnitude, toNat_bits_make negative hm]
  split
  · rw [Nat.add_mod_right, Nat.mod_eq_of_lt hm]
  · exact Nat.mod_eq_of_lt hm

theorem isNegative_make : (make negative m).isNegative = negative := by
  rw [isNegative, toNat_bits_make negative hm]
  simp only [signBit] at *
  cases negative <;> simp
  omega

end

/-! ### Rounding to a magnitude -/

/-- A significand of `r` units of the place `k` above the least one. -/
theorem parts_of_units {k r : Nat} (hlt : r < 2 * hiddenBit) (hfull : k = 0 ∨ hiddenBit ≤ r) :
    significand (k * hiddenBit + r) = r ∧ lastExponent (k * hiddenBit + r) = k - 1074 := by
  have hcases := binade_cases (k * hiddenBit + r)
  simp only [hiddenBit] at *
  omega

/-- A significand that was rounded up to the next binade. -/
theorem parts_of_carry (k : Nat) :
    significand (k * hiddenBit + 2 * hiddenBit) = hiddenBit ∧
      lastExponent (k * hiddenBit + 2 * hiddenBit) = k - 1073 ∧
      gapBelow (k * hiddenBit + 2 * hiddenBit) = 1 := by
  have hcases := binade_cases (k * hiddenBit + 2 * hiddenBit)
  have hgap := gapBelow_cases (k * hiddenBit + 2 * hiddenBit)
  simp only [hiddenBit] at *
  omega

/-- A significand is in the interval of its magnitude: `r` units of the place `k` above the least
one, where a full significand has its highest bit. -/
theorem roundsTo_of_units {k r : Nat} {q : ℚ} (hr : r ≤ 2 * hiddenBit)
    (hbelow : (2 * r - 1) * 2 ^ ((k : ℤ) - 1075) ≤ q)
    (habove : q ≤ (2 * r + 1) * 2 ^ ((k : ℤ) - 1075))
    (hodd : r % 2 = 1 →
      (2 * r - 1) * 2 ^ ((k : ℤ) - 1075) < q ∧ q < (2 * r + 1) * 2 ^ ((k : ℤ) - 1075))
    (hfull : k = 0 ∨ hiddenBit ≤ r ∧ hiddenBit * 2 ^ ((k : ℤ) - 1074) ≤ q) :
    RoundsTo (k * hiddenBit + r) q := by
  have hgap := gapBelow_cases (k * hiddenBit + r)
  have hparity : (k * hiddenBit + r) % 2 = r % 2 := by
    simp only [hiddenBit]
    omega
  have hhalf : (2 : ℚ) ^ ((k : ℤ) - 1075) = 2 * 2 ^ ((k : ℤ) - 1076) := by
    rw [show (k : ℤ) - 1075 = 1 + (k - 1076) by ring, zpow_add₀ two_ne_zero, zpow_one]
  have hquarter : (2 : ℚ) ^ ((k : ℤ) - 1074) = 4 * 2 ^ ((k : ℤ) - 1076) := by
    rw [show (k : ℤ) - 1074 = 2 + (k - 1076) by ring, zpow_add₀ two_ne_zero]
    norm_num
  have hpow : (0 : ℚ) < 2 ^ ((k : ℤ) - 1076) := by positivity
  rw [hhalf] at hbelow habove hodd
  rw [hquarter] at hfull
  rw [RoundsTo, hparity, halfBelow, halfAbove]
  rcases Nat.lt_or_ge r (2 * hiddenBit) with hlt | hge
  · -- the significand fits
    obtain ⟨hm, he⟩ := parts_of_units hlt (hfull.imp_right And.left)
    rw [hm, he, show (k - 1074 - 2 : ℤ) = k - 1076 by ring]
    rcases hgap with ⟨hone, htop, hplace⟩ | ⟨htwo, -⟩
    · rw [hm] at htop
      rw [hone, htop]
      have hq : (hiddenBit : ℚ) * (4 * 2 ^ ((k : ℤ) - 1076)) ≤ q := by
        refine hfull.elim (fun hk => ?_) And.right
        omega
      rw [htop] at habove
      refine ⟨by push_cast; linarith, by linarith, fun h => ?_⟩
      simp only [hiddenBit] at h
      omega
    · rw [htwo]
      push_cast
      exact ⟨by linarith, by linarith, fun h =>
        ⟨by linarith [(hodd h).1], by linarith [(hodd h).2]⟩⟩
  · -- it was rounded up to the next binade
    obtain rfl : r = 2 * hiddenBit := le_antisymm hr hge
    obtain ⟨hm, he, hone⟩ := parts_of_carry k
    rw [hm, he, hone, show (k - 1073 - 2 : ℤ) = 1 + (k - 1076) by ring, zpow_add₀ two_ne_zero,
      zpow_one]
    push_cast at hbelow habove ⊢
    refine ⟨by linarith, by linarith, fun h => ?_⟩
    omega

/-- The magnitude that a quotient is rounded to where exponents have no upper end. -/
def nearest (num den : Nat) : Nat :=
  let e := lastPlace 53 (-1074) num den
  let (a, b) := scaleDown num den e
  (e + 1074).toNat * hiddenBit + roundHalfEven a b

theorem ofRatio_eq_make (negative : Bool) {num : Nat} (hnum : 0 < num) (den : Nat) :
    ofRatio negative num den = make negative (min infiniteMagnitude (nearest num den)) := by
  rw [ofRatio, if_neg hnum.ne']
  rfl

/-- A quotient lies in the interval of the magnitude that it is rounded to. -/
theorem roundsTo_nearest {num den : Nat} (hnum : 0 < num) (hden : 0 < den) :
    RoundsTo (nearest num den) (num / den) := by
  obtain ⟨hleast, hhigh, hlow⟩ := lastPlace_bounds hden hnum 53 (-1074)
  rw [nearest]
  dsimp only
  generalize lastPlace 53 (-1074) num den = e at *
  obtain ⟨k, rfl⟩ : ∃ k : Nat, e = k - 1074 := ⟨(e + 1074).toNat, by omega⟩
  obtain ⟨hpos, hscale⟩ := scaleDown_div hden num ((k : ℤ) - 1074)
  generalize scaleDown num den ((k : ℤ) - 1074) = scaled at *
  obtain ⟨a, b⟩ := scaled
  dsimp only at hpos hscale ⊢
  have hpow : (0 : ℚ) < 2 ^ ((k : ℤ) - 1074) := by positivity
  have hhalf : (2 : ℚ) ^ ((k : ℤ) - 1074) = 2 * 2 ^ ((k : ℤ) - 1075) := by
    rw [show (k : ℤ) - 1074 = 1 + (k - 1075) by ring, zpow_add₀ two_ne_zero, zpow_one]
  obtain ⟨hbelow, habove, hodd⟩ := roundHalfEven_bounds a hpos
  rw [← hscale] at hhigh hlow ⊢
  rw [zpow_add₀ two_ne_zero, mul_lt_mul_iff_of_pos_right hpow] at hhigh
  rw [zpow_add₀ two_ne_zero, mul_le_mul_iff_of_pos_right hpow] at hlow
  rw [show (k - 1074 + 1074 : ℤ).toNat = k by omega]
  generalize roundHalfEven a b = r at *
  generalize (a / b : ℚ) = x at *
  have hle : r ≤ 2 * hiddenBit := by
    have hx : x < 2 * hiddenBit := by
      norm_num [hiddenBit] at hhigh ⊢
      exact hhigh
    have hlt : (r : ℚ) < 2 * hiddenBit + 1 := by linarith
    exact Nat.le_of_lt_succ (by exact_mod_cast hlt)
  have hfull : k = 0 ∨
      hiddenBit ≤ r ∧ hiddenBit * 2 ^ ((k : ℤ) - 1074) ≤ x * 2 ^ ((k : ℤ) - 1074) := by
    refine hlow.imp (fun h => by omega) fun h => ?_
    have hx : (hiddenBit : ℚ) ≤ x := by
      norm_num [hiddenBit] at h ⊢
      exact h
    refine ⟨Nat.le_of_lt_succ ?_, mul_le_mul_of_nonneg_right hx hpow.le⟩
    have hlt : (hiddenBit : ℚ) < r + 1 := by linarith
    exact_mod_cast hlt
  refine roundsTo_of_units hle ?_ ?_ ?_ hfull
  all_goals rw [hhalf]
  · nlinarith
  · nlinarith
  · intro h
    exact ⟨by nlinarith [(hodd h).1], by nlinarith [(hodd h).2]⟩

/-! ### Order -/

theorem halfAbove_zero_lt_one : halfAbove 0 < 1 := by
  have hzero : halfAbove 0 = 2 * 2 ^ (-1076 : ℤ) := by
    have hm : significand 0 = 0 := rfl
    have he : lastExponent 0 - 2 = -1076 := rfl
    rw [halfAbove, hm, he, Nat.cast_zero, mul_zero, zero_add]
  have hpow : (2 : ℚ) ^ (-1076 : ℤ) < 2 ^ (-1 : ℤ) := zpow_lt_zpow_right₀ one_lt_two (by decide)
  rw [zpow_neg_one] at hpow
  linarith

/-- A larger number is not rounded to a smaller magnitude. -/
theorem RoundsTo.mono {m n : Nat} {p q : ℚ} (hm : RoundsTo m p) (hn : RoundsTo n q) (h : p ≤ q) :
    m ≤ n := by
  by_contra hlt
  have hends : halfAbove n ≤ halfBelow m := by
    obtain ⟨c, rfl⟩ := Nat.exists_eq_add_of_lt (not_le.1 hlt)
    rw [halfBelow_succ]
    exact halfAbove_strictMono.monotone (Nat.le_add_right n c)
  obtain rfl : p = q := le_antisymm h (hn.2.1.trans (hends.trans hm.1))
  exact hlt (hm.unique hn).le

/-- Of two whole numbers that are rounded to one magnitude both are 2^53 or more. -/
theorem RoundsTo.two_pow_le {n a b : Nat} (ha : RoundsTo n a) (hb : RoundsTo n b) (h : a < b) :
    2 ^ 53 ≤ a := by
  have hbelow := ha.1
  have habove := hb.2.1
  have hgap := gapBelow_cases n
  have hcases := binade_cases n
  have hstep : (a : ℚ) + 1 ≤ b := by exact_mod_cast h
  rw [halfBelow] at hbelow
  rw [halfAbove] at habove
  have hquarter : (2 : ℚ) ^ lastExponent n = 4 * 2 ^ (lastExponent n - 2) := by
    rw [show lastExponent n = 2 + (lastExponent n - 2) by ring, zpow_add₀ two_ne_zero]
    norm_num
  have hgap2 : (gapBelow n : ℚ) ≤ 2 := by exact_mod_cast show gapBelow n ≤ 2 by omega
  have hpow : (0 : ℚ) < 2 ^ (lastExponent n - 2) := by positivity
  -- the interval is no wider than the last place, so that is not a fraction
  have hplace : 0 ≤ lastExponent n := by
    have hwidth : (2 : ℚ) ^ (0 : ℤ) ≤ 2 ^ lastExponent n := by
      rw [zpow_zero, hquarter]
      nlinarith
    exact (zpow_le_zpow_iff_right₀ one_lt_two).1 hwidth
  rcases hplace.eq_or_lt with hzero | hpos
  · -- a last place of one separates whole numbers
    rw [← hzero] at hbelow habove
    norm_num at hbelow habove
    have hle : significand n < a + 1 := by
      have : (significand n : ℚ) < a + 1 := by linarith
      exact_mod_cast this
    have hlt : b < significand n + 1 := by
      have : (b : ℚ) < significand n + 1 := by linarith
      exact_mod_cast this
    omega
  · have hfull : 2 ^ 54 + gapBelow n ≤ 4 * significand n + 1 := by
      simp only [hiddenBit] at hcases hgap
      omega
    have hfull' : (2 ^ 54 + gapBelow n : ℚ) ≤ 4 * significand n + 1 := by exact_mod_cast hfull
    have hhalf : (2 : ℚ) ^ (-1 : ℤ) ≤ 2 ^ (lastExponent n - 2) :=
      zpow_le_zpow_right₀ one_le_two (by omega)
    rw [zpow_neg_one] at hhalf
    have hlt : (2 ^ 53 : ℚ) < a + 1 := by nlinarith
    exact Nat.le_of_lt_succ (by exact_mod_cast hlt)

/-! ### Whole numbers -/

/-- Whole numbers of 64 bits are rounded to finite magnitudes. -/
theorem nearest_lt_infiniteMagnitude {n : Nat} (hn : 0 < n) (h : n < 2 ^ 64) :
    nearest n 1 < infiniteMagnitude := by
  have hend : RoundsTo (1087 * hiddenBit) (2 ^ 64 : Nat) := by decide +kernel
  have hround := roundsTo_nearest hn one_pos
  rw [Nat.cast_one, div_one] at hround
  have hle := hround.mono hend (by exact_mod_cast h.le)
  exact hle.trans_lt (by decide)

section

variable {a : Int} (h : a.natAbs < 2 ^ 64)

include h

theorem ofInt_eq_make (ha : a ≠ 0) :
    ofInt a = make (decide (a < 0)) (nearest a.natAbs 1) ∧
      nearest a.natAbs 1 < infiniteMagnitude := by
  have hpos := Int.natAbs_pos.2 ha
  have hlt := nearest_lt_infiniteMagnitude hpos h
  exact ⟨by rw [ofInt, ofRatio_eq_make _ hpos, min_eq_right hlt.le], hlt⟩

theorem isFinite_ofInt : (ofInt a).isFinite = true := by
  by_cases ha : a = 0
  · subst ha
    rfl
  · obtain ⟨hmake, hlt⟩ := ofInt_eq_make h ha
    rw [hmake, isFinite, magnitude_make _ (hlt.trans (by decide))]
    exact decide_eq_true hlt

theorem isNegative_ofInt : (ofInt a).isNegative = decide (a < 0) := by
  by_cases ha : a = 0
  · subst ha
    rfl
  · obtain ⟨hmake, hlt⟩ := ofInt_eq_make h ha
    rw [hmake, isNegative_make _ (hlt.trans (by decide))]

theorem roundsTo_ofInt : RoundsTo (ofInt a).magnitude a.natAbs := by
  by_cases ha : a = 0
  · subst ha
    decide +kernel
  · obtain ⟨hmake, hlt⟩ := ofInt_eq_make h ha
    have hround := roundsTo_nearest (Int.natAbs_pos.2 ha) one_pos
    rwa [Nat.cast_one, div_one, ← magnitude_make _ (hlt.trans (by decide)), ← hmake] at hround

theorem magnitude_ofInt_pos (ha : a ≠ 0) : 0 < (ofInt a).magnitude := by
  refine Nat.pos_of_ne_zero fun hzero => ?_
  have hround := roundsTo_ofInt h
  rw [hzero] at hround
  have hone : ((1 : Nat) : ℚ) ≤ a.natAbs := by exact_mod_cast Int.natAbs_pos.2 ha
  have hlt := halfAbove_zero_lt_one
  rw [Nat.cast_one] at hone
  linarith [hround.2.1]

end

section

variable {a b : Int} (ha : a.natAbs < 2 ^ 64) (hb : b.natAbs < 2 ^ 64)

include ha hb

/-- Rounding does not turn the order of two whole numbers round. -/
theorem key_ofInt_mono (h : a ≤ b) : (ofInt a).key ≤ (ofInt b).key := by
  have hmono (h : a.natAbs ≤ b.natAbs) : (ofInt a).magnitude ≤ (ofInt b).magnitude :=
    (roundsTo_ofInt ha).mono (roundsTo_ofInt hb) (by exact_mod_cast h)
  have hanti (h : b.natAbs ≤ a.natAbs) : (ofInt b).magnitude ≤ (ofInt a).magnitude :=
    (roundsTo_ofInt hb).mono (roundsTo_ofInt ha) (by exact_mod_cast h)
  rw [key, key, isNegative_ofInt ha, isNegative_ofInt hb]
  simp only [decide_eq_true_eq]
  split_ifs <;> omega

/-- Whole numbers with one place in the order are rounded to one number. -/
theorem key_ofInt_inj : (ofInt a).key = (ofInt b).key ↔ ofInt a = ofInt b := by
  refine ⟨fun h => ?_, congrArg key⟩
  have hposa := magnitude_ofInt_pos ha
  have hposb := magnitude_ofInt_pos hb
  rw [key, key, isNegative_ofInt ha, isNegative_ofInt hb] at h
  simp only [decide_eq_true_eq] at h
  have hsign : decide (a < 0) = decide (b < 0) := by
    rw [decide_eq_decide]
    split_ifs at h <;> omega
  refine eq_of_magnitude_eq (by rw [isNegative_ofInt ha, isNegative_ofInt hb, hsign]) ?_
  split_ifs at h <;> omega

/-- Different whole numbers that are rounded to one number have more than 53 binary digits, up to
2^53 itself. -/
theorem two_pow_le_of_ofInt_eq (h : ofInt a = ofInt b) (hne : a ≠ b) :
    2 ^ 53 ≤ a.natAbs ∧ 2 ^ 53 ≤ b.natAbs ∧ a.natAbs ≠ b.natAbs := by
  have hsign := congrArg isNegative h
  rw [isNegative_ofInt ha, isNegative_ofInt hb, decide_eq_decide] at hsign
  have hrounda := roundsTo_ofInt ha
  have hroundb := roundsTo_ofInt hb
  rw [h] at hrounda
  have hnatAbs : a.natAbs ≠ b.natAbs := by omega
  rcases Nat.lt_or_gt_of_ne hnatAbs with hlt | hlt
  · have := hrounda.two_pow_le hroundb hlt
    omega
  · have := hroundb.two_pow_le hrounda hlt
    omega

end

end Double

end RowQuery
