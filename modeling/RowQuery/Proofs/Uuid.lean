import RowQuery.Uuid

/-!
# A UUID is known by its text

The text has the hexadecimal digits of all 128 bits in it, so no two UUIDs share a text
(`text_injective`).
-/

namespace RowQuery.Uuid

theorem digitValue?_hexDigit : ∀ n < 16, digitValue? (Json.hexDigit n) = some n := by decide

theorem hexDigit_ne_dash : ∀ n < 16, Json.hexDigit n ≠ '-' := by decide

theorem digits_lt (u : Uuid) : ∀ d ∈ u.digits, d < 16 := by
  intro d hd
  obtain ⟨i, _, rfl⟩ := List.mem_map.1 hd
  exact Nat.mod_lt _ (by decide)

/-- Each bit is a bit of one digit. -/
theorem digits_injective : Function.Injective digits := by
  intro u v h
  have hdigits := List.map_inj_left.1 h
  suffices u.bits = v.bits by
    cases u
    cases v
    exact congrArg mk this
  refine BitVec.eq_of_toNat_eq (Nat.eq_of_testBit_eq fun k => ?_)
  by_cases hk : k < 128
  · have hdigit := hdigits (31 - k / 4) (List.mem_range.2 (by omega))
    have hbit := congrArg (Nat.testBit · (k % 4)) hdigit
    have hplace : 4 * (31 - (31 - k / 4)) + k % 4 = k := by omega
    have hlt : k % 4 < 4 := Nat.mod_lt k (by decide)
    rw [show (16 : Nat) = 2 ^ 4 from rfl] at hbit
    simpa only [Nat.testBit_mod_two_pow, Nat.testBit_shiftRight, hplace, hlt, decide_true,
      Bool.true_and] using hbit
  · have hzero (w : Uuid) : w.bits.toNat.testBit k = false :=
      Nat.testBit_lt_two_pow (Nat.lt_of_lt_of_le w.bits.isLt
        (Nat.pow_le_pow_right (by decide) (Nat.le_of_not_lt hk)))
    rw [hzero, hzero]

/-- Without its dashes a text has the digits, one after another. -/
theorem filter_text (u : Uuid) :
    u.text.toList.filter (· != '-') = u.digits.map Json.hexDigit := by
  have hne : ∀ c ∈ u.digits.map Json.hexDigit, (c != '-') = true := by
    intro c hc
    obtain ⟨d, hd, rfl⟩ := List.mem_map.1 hc
    exact bne_iff_ne.2 (hexDigit_ne_dash d (u.digits_lt d hd))
  rw [text, String.toList_ofList]
  generalize u.digits.map Json.hexDigit = ds at hne
  have htake (i j : Nat) : ((ds.drop i).take j).filter (· != '-') = (ds.drop i).take j :=
    List.filter_eq_self.2 fun c hc => hne c (List.mem_of_mem_drop (List.mem_of_mem_take hc))
  have hdrop (i : Nat) : (ds.drop i).filter (· != '-') = ds.drop i :=
    List.filter_eq_self.2 fun c hc => hne c (List.mem_of_mem_drop hc)
  have hjoin (i j : Nat) : (ds.drop i).take j ++ ds.drop (i + j) = ds.drop i := by
    rw [← List.drop_drop, List.take_append_drop]
  have hfirst := htake 0 8
  rw [List.drop_zero] at hfirst
  simp only [List.filter_append, List.filter_cons, hfirst, htake, hdrop, bne_self_eq_false,
    Bool.false_eq_true, if_false, List.append_assoc]
  rw [hjoin 16 4, hjoin 12 4, hjoin 8 4, List.take_append_drop]

theorem text_injective : Function.Injective text := by
  intro u v h
  have hback (w : Uuid) :
      (w.text.toList.filter (· != '-')).map digitValue? = w.digits.map some := by
    rw [filter_text, List.map_map]
    exact List.map_congr_left fun d hd => digitValue?_hexDigit d (w.digits_lt d hd)
  have hdigits : u.digits.map some = v.digits.map some := by
    rw [← hback, ← hback, h]
  exact digits_injective ((List.map_inj_right fun _ _ => Option.some.inj).1 hdigits)

end RowQuery.Uuid
