import RowQuery.Double.Decimal
import RowQuery.Proofs.Double.Interval

/-!
# The shortest decimal rounds to its number

Every decimal that is tried for a number lies in the interval of its magnitude
(`roundsTo_of_onGrid?`), and the finest grid has one there, since its steps are smaller than half
the interval (`onGrid?_ne_none`). So a number has a shortest decimal, and no other number has the
same one.
-/

namespace RowQuery

/-- The value of a decimal. -/
def Decimal.value (d : Decimal) : ℚ := d.digits * 10 ^ d.exponent

namespace Double

/-! ### Grids -/

/-- A scaled quotient is the quotient divided by the power of two. -/
theorem scaleDown_mul (num : Nat) {den : Nat} (hden : 0 < den) (e : Int) :
    0 < (scaleDown num den e).2 ∧
      ((scaleDown num den e).1 : ℚ) * (den * 2 ^ e) = num * (scaleDown num den e).2 := by
  rw [scaleDown]
  split
  · rename_i he
    obtain ⟨k, rfl⟩ := Int.eq_ofNat_of_zero_le he
    refine ⟨by simp [Nat.shiftLeft_eq]; omega, ?_⟩
    simp [Nat.shiftLeft_eq]
  · rename_i he
    obtain ⟨k, rfl⟩ : ∃ k : Nat, e = -k := ⟨(-e).toNat, by omega⟩
    refine ⟨hden, ?_⟩
    have hpow : (2 : ℚ) ^ k * 2 ^ (-k : ℤ) = 1 := by
      rw [← zpow_natCast, ← zpow_add₀ two_ne_zero, add_neg_cancel, zpow_zero]
    simp only [neg_neg, Int.toNat_natCast, Nat.shiftLeft_eq, Nat.cast_mul, Nat.cast_pow,
      Nat.cast_ofNat]
    linear_combination (num * den : ℚ) * hpow

/-- The quarters of the last place of numbers with exponent `e`, on the grid of multiples of
`10 ^ g`. -/
def quarters (e g : Int) : Nat × Nat :=
  scaleDown (Nat.pow 10 (-g).toNat) (Nat.pow 10 g.toNat) (2 - e)

/-- Up to one factor both have their values. -/
theorem exists_quarters_factor (e g : Int) :
    ∃ c : ℚ, 0 < c ∧ (quarters e g).1 * c = 2 ^ (e - 2) ∧ (quarters e g).2 * c = 10 ^ g := by
  have hone : 0 < Nat.pow 10 g.toNat := Nat.pow_pos (by decide)
  obtain ⟨hpos, hscale⟩ := scaleDown_mul (Nat.pow 10 (-g).toNat) hone (2 - e)
  have hten : (10 : ℚ) ^ (g.toNat : ℤ) = 10 ^ g * 10 ^ ((-g).toNat : ℤ) := by
    rw [← zpow_add₀ (by norm_num)]
    congr 1
    omega
  have htwo : (2 : ℚ) ^ (2 - e) * 2 ^ (e - 2) = 1 := by
    rw [← zpow_add₀ two_ne_zero, sub_add_sub_cancel, sub_self, zpow_zero]
  have hden : (0 : ℚ) < (quarters e g).2 := by exact_mod_cast hpos
  refine ⟨10 ^ g / (quarters e g).2, by positivity, ?_, mul_div_cancel₀ _ hden.ne'⟩
  rw [← mul_div_assoc, div_eq_iff hden.ne']
  rw [quarters]
  simp only [Nat.pow_eq, Nat.cast_pow, Nat.cast_ofNat, ← zpow_natCast] at hscale ⊢
  generalize (scaleDown (10 ^ (-g).toNat) (10 ^ g.toNat) (2 - e)) = scaled at hscale ⊢
  have hne : (10 : ℚ) ^ ((-g).toNat : ℤ) ≠ 0 := by positivity
  refine mul_left_cancel₀ hne ?_
  linear_combination (2 : ℚ) ^ (e - 2) * hscale -
    (2 : ℚ) ^ (e - 2) * scaled.1 * 2 ^ (2 - e) * hten -
    (10 : ℚ) ^ ((-g).toNat : ℤ) * scaled.1 * 10 ^ g * htwo

/-- Quarters and multiples of `10 ^ g` are compared as their values are. -/
theorem quarters_le_iff (e g : Int) (k d : Nat) :
    k * (quarters e g).1 ≤ d * (quarters e g).2 ↔ (k * 2 ^ (e - 2) : ℚ) ≤ d * 10 ^ g := by
  obtain ⟨c, hc, hup, hden⟩ := exists_quarters_factor e g
  rw [← Nat.cast_le (α := ℚ), ← mul_le_mul_iff_of_pos_right hc, Nat.cast_mul, Nat.cast_mul,
    mul_assoc, mul_assoc, hup, hden]

theorem le_quarters_iff (e g : Int) (k d : Nat) :
    d * (quarters e g).2 ≤ k * (quarters e g).1 ↔ (d * 10 ^ g : ℚ) ≤ k * 2 ^ (e - 2) := by
  obtain ⟨c, hc, hup, hden⟩ := exists_quarters_factor e g
  rw [← Nat.cast_le (α := ℚ), ← mul_le_mul_iff_of_pos_right hc, Nat.cast_mul, Nat.cast_mul,
    mul_assoc, mul_assoc, hup, hden]

theorem quarters_lt_iff (e g : Int) (k d : Nat) :
    k * (quarters e g).1 < d * (quarters e g).2 ↔ (k * 2 ^ (e - 2) : ℚ) < d * 10 ^ g := by
  rw [← not_le, ← not_le, le_quarters_iff]

theorem lt_quarters_iff (e g : Int) (k d : Nat) :
    d * (quarters e g).2 < k * (quarters e g).1 ↔ (d * 10 ^ g : ℚ) < k * 2 ^ (e - 2) := by
  rw [← not_le, ← not_le, quarters_le_iff]

theorem quarters_pos (e g : Int) : 0 < (quarters e g).1 := by
  have hlt := (lt_quarters_iff e g 1 0).2 (by simp only [Nat.cast_zero, zero_mul]; positivity)
  omega

theorem quarters_snd_pos (e g : Int) : 0 < (quarters e g).2 :=
  (scaleDown_mul _ (Nat.pow_pos (by decide)) (2 - e)).1

/-! ### Hits -/

section

variable {n : Nat} (hn : 0 < n) (g : Int)

include hn

/-- Whether a multiple of `10 ^ g` rounds to a magnitude is decided in whole numbers. -/
theorem roundsTo_iff (d : Nat) :
    RoundsTo n (d * 10 ^ g) ↔
      let (up, den) := quarters (lastExponent n) g
      let (low, high) := ((4 * significand n - gapBelow n) * up, (4 * significand n + 2) * up)
      low ≤ d * den ∧ d * den ≤ high ∧ (n % 2 = 1 → low < d * den ∧ d * den < high) := by
  have hgap : gapBelow n ≤ 4 * significand n := by
    have hpos := significand_pos hn
    have hcases := gapBelow_cases n
    omega
  have hbelow : halfBelow n =
      ((4 * significand n - gapBelow n : Nat) : ℚ) * 2 ^ (lastExponent n - 2) := by
    rw [halfBelow, Nat.cast_sub hgap]
    push_cast
    rfl
  have habove : halfAbove n =
      ((4 * significand n + 2 : Nat) : ℚ) * 2 ^ (lastExponent n - 2) := by
    rw [halfAbove]
    push_cast
    rfl
  simp only [RoundsTo, hbelow, habove, quarters_le_iff, le_quarters_iff, quarters_lt_iff,
    lt_quarters_iff]

/-- The number itself lies inside its interval. -/
theorem between_ends :
    let up := (quarters (lastExponent n) g).1
    (4 * significand n - gapBelow n) * up < 4 * significand n * up ∧
      4 * significand n * up < (4 * significand n + 2) * up := by
  have hup := quarters_pos (lastExponent n) g
  have hpos := significand_pos hn
  have hgap := gapBelow_cases n
  exact ⟨Nat.mul_lt_mul_of_pos_right (by omega) hup, Nat.mul_lt_mul_of_pos_right (by omega) hup⟩

end

/-- The multiple of `10 ^ g` that is next below the number of a magnitude. -/
def gridFloor (n : Nat) (g : Int) : Nat :=
  let (up, den) := quarters (lastExponent n) g
  4 * significand n * up / den

theorem gridFloor_mul_le (n : Nat) (g : Int) :
    gridFloor n g * (quarters (lastExponent n) g).2 ≤
      4 * significand n * (quarters (lastExponent n) g).1 :=
  Nat.div_mul_le_self _ _

theorem lt_gridFloor_mul (n : Nat) (g : Int) :
    4 * significand n * (quarters (lastExponent n) g).1 <
      (gridFloor n g + 1) * (quarters (lastExponent n) g).2 :=
  (Nat.div_lt_iff_lt_mul (quarters_snd_pos _ g)).1 (Nat.lt_succ_self _)

section

variable {x : Double} (hx : 0 < x.magnitude) (tie : Tie) (g : Int)

include hx

/-- Of the two neighbours of a number on a grid those are taken that round to it. -/
theorem onGrid?_eq :
    x.onGrid? tie g =
      let d := gridFloor x.magnitude g
      let (up, den) := quarters (lastExponent x.magnitude) g
      match decide (RoundsTo x.magnitude (d * 10 ^ g)),
        decide (RoundsTo x.magnitude ((d + 1 : Nat) * 10 ^ g)) with
      | true, true => some (nearer tie (4 * significand x.magnitude * up) den d)
      | true, false => some d
      | false, true => some (d + 1)
      | false, false => none := by
  obtain ⟨hlow, hhigh⟩ := between_ends hx g
  have hden := quarters_snd_pos (lastExponent x.magnitude) g
  have hparity := significand_mod_two x.magnitude
  have hfloor := gridFloor_mul_le x.magnitude g
  have hceil := lt_gridFloor_mul x.magnitude g
  have hlowest : decide (RoundsTo x.magnitude (gridFloor x.magnitude g * 10 ^ g)) =
      let (up, den) := quarters (lastExponent x.magnitude) g
      let (low, d) := ((4 * significand x.magnitude - gapBelow x.magnitude) * up,
        gridFloor x.magnitude g)
      if significand x.magnitude % 2 = 0 then decide (low ≤ d * den)
      else decide (low < d * den) := by
    dsimp only
    split_ifs
    all_goals
      rw [decide_eq_decide, roundsTo_iff hx]
      dsimp only at *
      omega
  have hhighest : decide (RoundsTo x.magnitude ((gridFloor x.magnitude g + 1 : Nat) * 10 ^ g)) =
      let (up, den) := quarters (lastExponent x.magnitude) g
      let (high, d) := ((4 * significand x.magnitude + 2) * up, gridFloor x.magnitude g)
      if significand x.magnitude % 2 = 0 then decide ((d + 1) * den ≤ high)
      else decide ((d + 1) * den < high) := by
    dsimp only
    split_ifs
    all_goals
      rw [decide_eq_decide, roundsTo_iff hx]
      dsimp only at *
      omega
  dsimp only
  rw [hlowest, hhighest, onGrid?, decode_eq]
  rfl

/-- A decimal that is tried and taken rounds to its number. -/
theorem roundsTo_of_onGrid? {d : Nat} (h : x.onGrid? tie g = some d) :
    RoundsTo x.magnitude (d * 10 ^ g) := by
  rw [onGrid?_eq hx] at h
  dsimp only at h
  split at h
  · rename_i hlow hhigh
    rcases nearer_eq_or tie _ _ _ with hd | hd
    · rw [hd] at h
      exact Option.some.inj h ▸ of_decide_eq_true hlow
    · rw [hd] at h
      exact Option.some.inj h ▸ of_decide_eq_true hhigh
  · rename_i hlow _
    exact Option.some.inj h ▸ of_decide_eq_true hlow
  · rename_i _ hhigh
    exact Option.some.inj h ▸ of_decide_eq_true hhigh
  · cases h

/-- A grid whose steps are smaller than half of the last place has a decimal for the number. -/
theorem onGrid?_ne_none (hg : (10 : ℚ) ^ g < 2 ^ (lastExponent x.magnitude - 1)) :
    x.onGrid? tie g ≠ none := by
  have hhigh : RoundsTo x.magnitude ((gridFloor x.magnitude g + 1 : Nat) * 10 ^ g) := by
    obtain ⟨hlow, hmid⟩ := between_ends hx g
    have hceil := lt_gridFloor_mul x.magnitude g
    have hfloor := (le_quarters_iff ..).1 (gridFloor_mul_le x.magnitude g)
    have hhalf : (2 : ℚ) ^ (lastExponent x.magnitude - 1) =
        2 * 2 ^ (lastExponent x.magnitude - 2) := by
      rw [show lastExponent x.magnitude - 1 = 1 + (lastExponent x.magnitude - 2) by ring,
        zpow_add₀ two_ne_zero, zpow_one]
    have hbelow : (gridFloor x.magnitude g + 1) * (quarters (lastExponent x.magnitude) g).2 <
        (4 * significand x.magnitude + 2) * (quarters (lastExponent x.magnitude) g).1 := by
      rw [lt_quarters_iff]
      push_cast at hfloor ⊢
      linarith
    rw [roundsTo_iff hx]
    dsimp only at *
    omega
  rw [onGrid?_eq hx]
  dsimp only
  rw [decide_eq_true hhigh]
  split <;> simp_all

end

/-! ### The finest grid -/

theorem ten_pow_le_two_pow : ∀ n < 1100, 10 ^ (n * 30103 / 100000) ≤ 2 ^ (n + 1) := by
  decide +kernel

theorem two_pow_le_ten_pow : ∀ n < 1100, 2 ^ n ≤ 10 ^ ((n * 30103 + 99999) / 100000) := by
  decide +kernel

/-- The estimated logarithm is not too large. -/
theorem ten_zpow_le {n : Int} (hlow : -1100 < n) (hhigh : n < 1100) :
    (10 : ℚ) ^ (n * 30103 / 100000) ≤ 2 ^ (n + 1) := by
  rcases Int.eq_nat_or_neg n with ⟨k, rfl | rfl⟩
  · have hle := ten_pow_le_two_pow k (by omega)
    exact_mod_cast hle
  · have hle := two_pow_le_ten_pow k (by omega)
    have hdiv : -(k : ℤ) * 30103 / 100000 = -((k * 30103 + 99999) / 100000 : Nat) := by omega
    have hinv : ((10 : ℚ) ^ ((k * 30103 + 99999) / 100000))⁻¹ ≤ (2 ^ k)⁻¹ :=
      inv_anti₀ (by positivity) (by exact_mod_cast hle)
    have hpos : (0 : ℚ) < (2 ^ k)⁻¹ := by positivity
    rw [hdiv, zpow_neg, zpow_natCast, zpow_add₀ two_ne_zero, zpow_neg, zpow_natCast, zpow_one]
    linarith

section

variable {x : Double} (hx : 0 < x.magnitude) (tie : Tie)

include hx

/-- The logarithm of a number is estimated between those of the least and the largest. -/
theorem lastExponent_bounds :
    -1074 ≤ lastExponent x.magnitude ∧ lastExponent x.magnitude ≤ 972 ∧
      (significand x.magnitude).log2 ≤ 52 := by
  have hcases := binade_cases x.magnitude
  have hlt : x.magnitude < signBit := Nat.mod_lt _ (by decide)
  have hwidth : significand x.magnitude < 2 ^ 53 := significand_lt _
  have hlog := (Nat.log2_lt (significand_pos hx).ne').2 hwidth
  simp only [hiddenBit, signBit] at hcases hlt
  omega

/-- The last of the grids that are tried is fine enough. -/
theorem finest_lt :
    (10 : ℚ) ^ (((significand x.magnitude).log2 + lastExponent x.magnitude) * 30103 / 100000 +
      2 - (19 : Nat)) < 2 ^ (lastExponent x.magnitude - 1) := by
  obtain ⟨hlow, hhigh, hlog⟩ := lastExponent_bounds hx
  generalize lastExponent x.magnitude = e at *
  generalize (significand x.magnitude).log2 = l at *
  have hestimate : (10 : ℚ) ^ ((l + e) * 30103 / 100000) ≤ 2 ^ (54 + (e - 1)) :=
    (ten_zpow_le (by omega) (by omega)).trans
      (zpow_le_zpow_right₀ one_le_two (by omega))
  have hpos : (0 : ℚ) < 2 ^ (e - 1) := by positivity
  rw [zpow_add₀ two_ne_zero] at hestimate
  rw [show (l + e) * 30103 / 100000 + 2 - (19 : Nat) = (l + e) * 30103 / 100000 + -17 by omega,
    zpow_add₀ (by norm_num)]
  norm_num at hestimate ⊢
  linarith

/-- The shortest decimal of a number rounds to it. -/
theorem roundsTo_shortest : RoundsTo x.magnitude (x.shortest tie).value := by
  have hsome : ∃ d, x.shortest tie = d ∧ x.onGrid? tie d.exponent = some d.digits := by
    rw [shortest, decode_eq]
    dsimp only
    cases hfind : (List.range 20).findSome? fun (i : Nat) =>
        (x.onGrid? tie (((significand x.magnitude).log2 + lastExponent x.magnitude) * 30103 /
          100000 + 2 - i)).map fun d => (⟨d, ((significand x.magnitude).log2 +
            lastExponent x.magnitude) * 30103 / 100000 + 2 - i⟩ : Decimal) with
    | none =>
      have hfinest := List.findSome?_eq_none_iff.1 hfind 19 (by decide)
      exact absurd (Option.map_eq_none_iff.1 hfinest) (onGrid?_ne_none hx tie _ (finest_lt hx))
    | some d =>
      obtain ⟨i, _, hi⟩ := List.exists_of_findSome?_eq_some hfind
      obtain ⟨c, hc, rfl⟩ := Option.map_eq_some_iff.1 hi
      exact ⟨_, rfl, hc⟩
  obtain ⟨d, hd, hgrid⟩ := hsome
  rw [hd, Decimal.value]
  exact roundsTo_of_onGrid? hx tie _ hgrid

theorem digits_shortest_pos : 0 < (x.shortest tie).digits := by
  have hpos := (roundsTo_shortest hx tie).pos hx
  rw [Decimal.value] at hpos
  rcases Nat.eq_zero_or_pos (x.shortest tie).digits with hzero | hdigits
  · simp [hzero] at hpos
  · exact hdigits

end

end Double

end RowQuery
