import Mathlib
import ScriptMachine.Number.Binary

namespace ScriptMachine.Number

variable {x y : Number} {n : Nat}

theorem magnitude_toNat (x : Number) : x.magnitude.toNat = x.bits.toNat % 2 ^ 63 := by
  have h := Nat.and_two_pow_sub_one_eq_mod x.bits.toNat 63
  simpa [magnitude] using h

theorem isNegative_iff (x : Number) : x.isNegative = true ↔ 2 ^ 63 ≤ x.bits.toNat := by
  have hlt := x.bits.toNat_lt
  simp only [isNegative, beq_iff_eq, ← UInt64.toNat_inj, UInt64.toNat_shiftRight]
  simp [Nat.shiftRight_eq_div_pow]
  omega

theorem isFinite_iff (x : Number) :
    x.isFinite = true ↔ x.bits.toNat % 2 ^ 63 < 2047 * 2 ^ 52 := by
  simp only [isFinite, decide_eq_true_eq, UInt64.lt_iff_toNat_lt, magnitude_toNat]
  simp [infinity]

theorem isNaN_iff (x : Number) : x.isNaN = true ↔ 2047 * 2 ^ 52 < x.bits.toNat % 2 ^ 63 := by
  simp only [isNaN, decide_eq_true_eq, UInt64.lt_iff_toNat_lt, magnitude_toNat]
  simp [infinity]

theorem rank_toNat (x : Number) : x.rank.toBitVec.toNat =
    if 2 ^ 63 ≤ x.bits.toNat then (2 ^ 64 - x.bits.toNat % 2 ^ 63) % 2 ^ 64
    else x.bits.toNat % 2 ^ 63 := by
  have hm := magnitude_toNat x
  by_cases h : 2 ^ 63 ≤ x.bits.toNat
  · have hn := (isNegative_iff x).2 h
    simp only [rank, hn, if_true, h, Int64.toBitVec_neg, UInt64.toBitVec_toInt64,
      BitVec.toNat_neg, UInt64.toNat_toBitVec, hm]
  · have hn : x.isNegative = false := by
      rw [Bool.eq_false_iff, ne_eq, isNegative_iff]
      exact h
    simp only [rank, hn, if_neg h, Bool.false_eq_true, if_false, UInt64.toBitVec_toInt64,
      UInt64.toNat_toBitVec, hm]

/-- Only the two zeros share their rank. -/
theorem rank_eq_iff (x y : Number) : x.rank = y.rank ↔
    x.bits = y.bits ∨ x.bits.toNat % 2 ^ 63 = 0 ∧ y.bits.toNat % 2 ^ 63 = 0 := by
  have hx := x.bits.toNat_lt
  have hy := y.bits.toNat_lt
  rw [← Int64.toBitVec_inj, ← BitVec.toNat_inj, rank_toNat, rank_toNat, ← UInt64.toNat_inj]
  split <;> split <;> omega

theorem beq_iff (hx : x.isNaN = false) (hy : y.isNaN = false) : (x == y) = true ↔
      x.bits = y.bits ∨ x.bits.toNat % 2 ^ 63 = 0 ∧ y.bits.toNat % 2 ^ 63 = 0 := by
  change equals x y = true ↔ _
  rw [← rank_eq_iff]
  simp [equals, comparable, hx, hy]

theorem beq_zero_iff (hx : x.isNaN = false) : (x == 0) = true ↔ x.bits.toNat % 2 ^ 63 = 0 := by
  have hz : (0 : Number).bits = 0 := rfl
  rw [beq_iff hx rfl, hz]
  constructor
  · rintro (h | ⟨h, -⟩)
    · simp [h]
    · exact h
  · exact fun h => .inr ⟨h, rfl⟩

theorem exponentField_eq (w : UInt64) :
    Binary.exponentField w = w.toNat / 2 ^ 52 % 2 ^ 11 := by
  have h := Nat.and_two_pow_sub_one_eq_mod (w.toNat / 2 ^ 52) 11
  simpa [Binary.exponentField, Nat.shiftRight_eq_div_pow] using h

theorem fractionField_eq (w : UInt64) : Binary.fractionField w = w.toNat % 2 ^ 52 := by
  have h := Nat.and_two_pow_sub_one_eq_mod w.toNat 52
  simpa [Binary.fractionField] using h

theorem Binary.toInt?_eq_some_iff {b : Binary} (hn : 0 < n) :
    b.toInt? = some (n : Int) ↔ b.negative = false ∧
      b.mantissa * 2 ^ b.exponent.toNat = n * 2 ^ (-b.exponent).toNat := by
  have hpos : 0 < 2 ^ (-b.exponent).toNat := Nat.two_pow_pos _
  have hdvd : 2 ^ (-b.exponent).toNat ∣ b.mantissa ↔
      2 ^ (-b.exponent).toNat ∣ b.mantissa * 2 ^ b.exponent.toNat := by
    by_cases he : 0 ≤ b.exponent
    · have hk : (-b.exponent).toNat = 0 := by omega
      simp [hk]
    · have hk : b.exponent.toNat = 0 := by omega
      simp [hk]
  cases hb : b.negative with
  | true =>
    have hne : b.signed b.whole ≠ n := by
      simp only [signed, hb, if_true]
      omega
    simp [toInt?, hne]
  | false =>
    have hs : ∀ k, b.signed k = k := by simp [signed, hb]
    simp only [toInt?, hs, isIntegral, remainder, Nat.pow_eq, beq_iff_eq,
      Option.ite_none_right_eq_some, Option.some.injEq, Nat.cast_inj, whole, true_and,
      ← Nat.dvd_iff_mod_eq_zero, hdvd]
    constructor
    · rintro ⟨hd, h⟩
      rw [← h, Nat.div_mul_cancel hd]
    · intro h
      rw [h]
      exact ⟨Nat.dvd_mul_left _ _, Nat.mul_div_cancel _ hpos⟩

def significand (x : Number) : Nat := 2 ^ 52 + x.bits.toNat % 2 ^ 52

/-- Sign and exponent of a number. -/
def leadingField (x : Number) : Nat := x.bits.toNat / 2 ^ 52

theorem significand_ne_zero (x : Number) : x.significand ≠ 0 := by
  unfold significand
  positivity

theorem significand_log2 (x : Number) : x.significand.log2 = 52 := by
  have h := Nat.mod_lt x.bits.toNat (Nat.two_pow_pos 52)
  rw [Nat.log2_eq_iff x.significand_ne_zero, significand]
  omega

/-- The words of the positive integers. -/
theorem toInt?_eq_some_iff (hn : 0 < n) : x.toInt? = some (n : Int) ↔
    0 < x.leadingField ∧ x.leadingField < 2047 ∧
      x.significand * 2 ^ (x.leadingField - 1075) = n * 2 ^ (1075 - x.leadingField) := by
  have hlt := x.bits.toNat_lt
  have hneg : (Binary.ofNumber x).negative = x.isNegative := by
    unfold Binary.ofNumber
    split <;> rfl
  have hfin : x.toInt? = some (n : Int) ↔
      x.bits.toNat % 2 ^ 63 < 2047 * 2 ^ 52 ∧ (Binary.ofNumber x).toInt? = some (n : Int) := by
    rw [← isFinite_iff]
    cases h : x.isFinite <;> simp [toInt?, binary?, h]
  rw [hfin, Binary.toInt?_eq_some_iff hn, hneg, Bool.eq_false_iff, ne_eq, isNegative_iff]
  by_cases hw : 2 ^ 63 ≤ x.bits.toNat
  · have hb : ¬ x.leadingField < 2047 := by
      unfold leadingField
      omega
    simp only [hw, hb, not_true, false_and, and_false]
  have hmod : x.bits.toNat % 2 ^ 63 < 2047 * 2 ^ 52 ↔ x.leadingField < 2047 := by
    unfold leadingField
    omega
  have hexp : Binary.exponentField x.bits = x.leadingField := by
    rw [exponentField_eq, leadingField]
    omega
  simp only [hw, not_false_eq_true, true_and, hmod, Binary.ofNumber, hexp, fractionField_eq,
    Nat.pow_eq]
  by_cases h0 : x.leadingField = 0
  -- Below the least normal number there is no integer but zero.
  · have hm : ¬ x.bits.toNat % 2 ^ 52 * 2 ^ (-1074 : Int).toNat =
        n * 2 ^ (-(-1074 : Int)).toNat := by
      have h1 : (-1074 : Int).toNat = 0 := rfl
      have h2 : (-(-1074 : Int)).toNat = 52 + 1022 := rfl
      have h3 : 2 ^ 52 ≤ n * 2 ^ (52 + 1022) := by
        rw [pow_add, ← mul_assoc, mul_comm n, mul_assoc]
        exact Nat.le_mul_of_pos_right _ (by positivity)
      have h4 := Nat.mod_lt x.bits.toNat (Nat.two_pow_pos 52)
      rw [h1, h2, pow_zero, mul_one]
      exact fun h => by omega
    simp only [h0, if_true, hm, and_false, lt_irrefl, false_and]
  · have h1 : ((x.leadingField : Int) - 1075).toNat = x.leadingField - 1075 := by omega
    have h2 : (-((x.leadingField : Int) - 1075)).toNat = 1075 - x.leadingField := by omega
    simp only [h0, if_false, h1, h2, significand, Nat.pos_of_ne_zero h0, true_and]

theorem log2_mul_two_pow {m : Nat} (hm : m ≠ 0) (k : Nat) : (m * 2 ^ k).log2 = m.log2 + k := by
  induction k with
  | zero => simp
  | succ k ih =>
    have hne : m * 2 ^ k ≠ 0 := by positivity
    rw [pow_succ, ← mul_assoc, mul_comm, Nat.log2_two_mul hne, ih]
    rfl

theorem eq_of_toInt?_eq (hn : 0 < n) (hx : x.toInt? = some (n : Int))
    (hy : y.toInt? = some (n : Int)) : x = y := by
  obtain ⟨hx0, -, hxn⟩ := (toInt?_eq_some_iff hn).1 hx
  obtain ⟨hy0, -, hyn⟩ := (toInt?_eq_some_iff hn).1 hy
  have hlog : ∀ z : Number, 0 < z.leadingField →
      z.significand * 2 ^ (z.leadingField - 1075) = n * 2 ^ (1075 - z.leadingField) →
      z.leadingField = n.log2 + 1023 := by
    intro z hz h
    have hl := congrArg Nat.log2 h
    rw [log2_mul_two_pow z.significand_ne_zero, log2_mul_two_pow hn.ne', significand_log2] at hl
    omega
  have hfield : x.leadingField = y.leadingField := (hlog x hx0 hxn).trans (hlog y hy0 hyn).symm
  have hsig : x.significand = y.significand := by
    rw [hfield, ← hyn] at hxn
    exact Nat.eq_of_mul_eq_mul_right (Nat.two_pow_pos _) hxn
  have hbits : x.bits = y.bits := by
    rw [← UInt64.toNat_inj]
    unfold leadingField at hfield
    unfold significand at hsig
    omega
  cases x
  cases y
  exact congrArg _ hbits

end ScriptMachine.Number
