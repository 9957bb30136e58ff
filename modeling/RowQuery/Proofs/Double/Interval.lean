import RowQuery.Double
import Mathlib.Algebra.Order.Field.Power
import Mathlib.Order.Monotone.Basic
import Mathlib.Tactic.FieldSimp
import Mathlib.Tactic.LinearCombination
import Mathlib.Tactic.Linarith
import Mathlib.Tactic.Positivity
import Mathlib.Tactic.Ring

/-!
# The reals that round to a magnitude

Around each magnitude lie the numbers that are nearer to it than to its neighbours; halfway between
two neighbours the even one wins. No number rounds to two magnitudes (`RoundsTo.unique`).
-/

namespace RowQuery.Double

/-! ### Significand and exponent -/

variable {n : Nat}

def significand (n : Nat) : Nat :=
  if n / hiddenBit = 0 then n % hiddenBit else n % hiddenBit + hiddenBit

def lastExponent (n : Nat) : Int :=
  if n / hiddenBit = 0 then -1074 else ((n / hiddenBit : Nat) : Int) - 1075

theorem decode_eq (x : Double) :
    x.decode = (significand x.magnitude, lastExponent x.magnitude) := by
  rw [decode, significand, lastExponent]
  split <;> rfl

/-- The distance to the lower end of the interval, in quarters of the last place. -/
def gapBelow (n : Nat) : Nat :=
  if significand n = hiddenBit ∧ -1074 < lastExponent n then 1 else 2

theorem gapBelow_cases (n : Nat) :
    gapBelow n = 1 ∧ significand n = hiddenBit ∧ -1074 < lastExponent n ∨
      gapBelow n = 2 ∧ ¬ (significand n = hiddenBit ∧ -1074 < lastExponent n) := by
  rw [gapBelow]
  split <;> simp_all

/-- The numbers without the highest bit share an exponent with the first that have it. -/
theorem binade_cases (n : Nat) :
    n / hiddenBit = 0 ∧ significand n = n % hiddenBit ∧ lastExponent n = -1074 ∨
      0 < n / hiddenBit ∧ significand n = n % hiddenBit + hiddenBit ∧
        lastExponent n = ((n / hiddenBit : Nat) : Int) - 1075 := by
  rw [significand, lastExponent]
  split <;> simp_all [Nat.pos_iff_ne_zero]

theorem significand_pos (h : 0 < n) : 0 < significand n := by
  have hn := binade_cases n
  simp only [hiddenBit] at hn
  omega

theorem significand_lt (n : Nat) : significand n < 0x20000000000000 := by
  have hn := binade_cases n
  simp only [hiddenBit] at hn
  omega

theorem significand_mod_two (n : Nat) : significand n % 2 = n % 2 := by
  have hn := binade_cases n
  simp only [hiddenBit] at hn
  omega

/-- The next magnitude is one place further, in the same binade or at the start of the next one. -/
theorem succ_cases (n : Nat) :
    (significand (n + 1) = significand n + 1 ∧ lastExponent (n + 1) = lastExponent n ∧
        gapBelow (n + 1) = 2) ∨
      (2 * significand (n + 1) = significand n + 1 ∧ lastExponent (n + 1) = lastExponent n + 1 ∧
        gapBelow (n + 1) = 1) := by
  have hn := binade_cases n
  have hnext := binade_cases (n + 1)
  have hgap := gapBelow_cases (n + 1)
  simp only [hiddenBit] at hn hnext hgap
  omega

/-! ### Intervals -/

/-- Halfway to the magnitude below. -/
def halfBelow (n : Nat) : ℚ :=
  (4 * significand n - gapBelow n : ℚ) * 2 ^ (lastExponent n - 2)

/-- Halfway to the magnitude above. -/
def halfAbove (n : Nat) : ℚ := (4 * significand n + 2 : ℚ) * 2 ^ (lastExponent n - 2)

theorem halfBelow_succ (n : Nat) : halfBelow (n + 1) = halfAbove n := by
  rw [halfBelow, halfAbove]
  rcases succ_cases n with ⟨hm, he, hgap⟩ | ⟨hm, he, hgap⟩
  · rw [hm, he, hgap]
    push_cast
    ring
  · have hcast : (2 * significand (n + 1) : ℚ) = significand n + 1 := by exact_mod_cast hm
    have hpow : (2 : ℚ) ^ (lastExponent n + 1 - 2) = 2 * 2 ^ (lastExponent n - 2) := by
      rw [show lastExponent n + 1 - 2 = 1 + (lastExponent n - 2) by ring,
        zpow_add₀ two_ne_zero, zpow_one]
    rw [he, hgap, hpow, Nat.cast_one]
    linear_combination (4 * 2 ^ (lastExponent n - 2) : ℚ) * hcast

theorem halfBelow_lt_halfAbove (n : Nat) : halfBelow n < halfAbove n := by
  have hpow : (0 : ℚ) < 2 ^ (lastExponent n - 2) := by positivity
  have hgap : (0 : ℚ) ≤ gapBelow n := Nat.cast_nonneg _
  exact mul_lt_mul_of_pos_right (by linarith) hpow

theorem halfAbove_strictMono : StrictMono halfAbove :=
  strictMono_nat_of_lt_succ fun n => halfBelow_succ n ▸ halfBelow_lt_halfAbove (n + 1)

theorem halfBelow_pos (h : 0 < n) : 0 < halfBelow n := by
  have hm : (1 : ℚ) ≤ significand n := by exact_mod_cast significand_pos h
  have hgap : (gapBelow n : ℚ) ≤ 2 := by
    rw [gapBelow]
    split <;> norm_num
  exact mul_pos (by linarith) (by positivity)

/-- A number rounds to a magnitude. The ends of the interval belong to the even magnitudes. -/
def RoundsTo (n : Nat) (q : ℚ) : Prop :=
  halfBelow n ≤ q ∧ q ≤ halfAbove n ∧ (n % 2 = 1 → halfBelow n < q ∧ q < halfAbove n)

instance (n : Nat) (q : ℚ) : Decidable (RoundsTo n q) :=
  inferInstanceAs (Decidable (_ ∧ _ ∧ (_ → _ ∧ _)))

namespace RoundsTo

variable {a b : Nat} {q : ℚ}

theorem pos (h : RoundsTo n q) (hn : 0 < n) : 0 < q := (halfBelow_pos hn).trans_le h.1

/-- The intervals of two magnitudes have no more than an end in common, which is the even one's. -/
theorem not_lt (ha : RoundsTo a q) (hb : RoundsTo b q) : ¬ a < b := by
  intro hlt
  obtain ⟨c, rfl⟩ := Nat.exists_eq_add_of_lt hlt
  have hbelow : halfAbove (a + c) ≤ q := halfBelow_succ (a + c) ▸ hb.1
  have hc : c = 0 := by
    have hle : halfAbove (a + c) ≤ halfAbove a := hbelow.trans ha.2.1
    have := halfAbove_strictMono.le_iff_le.1 hle
    omega
  subst hc
  have hend : q = halfAbove a := le_antisymm ha.2.1 hbelow
  rcases Nat.mod_two_eq_zero_or_one a with heven | hodd
  · have hinside := (hb.2.2 (by omega)).1
    rw [Nat.add_zero, halfBelow_succ] at hinside
    exact hinside.ne' hend
  · exact (ha.2.2 hodd).2.ne hend

/-- No number rounds to two magnitudes. -/
theorem unique (ha : RoundsTo a q) (hb : RoundsTo b q) : a = b :=
  Nat.le_antisymm (Nat.le_of_not_lt (hb.not_lt ha)) (Nat.le_of_not_lt (ha.not_lt hb))

end RoundsTo

end RowQuery.Double
