import ScriptMachine.Proofs.Number.Words

namespace ScriptMachine.Number

open Float.Model Float.Model.UnpackedFloat

variable {n m : Nat} {e : Int} {x : Number}

theorem repeat_shiftRightOne (m k : Nat) :
    Nat.repeat ExtendedMantissa.shiftRightOne k ⟨m * 2 ^ k, false, false⟩ = ⟨m, false, false⟩ := by
  induction k generalizing m with
  | zero => simp [Nat.repeat]
  | succ k ih =>
    have h : m * 2 ^ (k + 1) = m * 2 * 2 ^ k := by ring
    rw [Nat.repeat, h, ih]
    simp [ExtendedMantissa.shiftRightOne]

/-- A significand of full width that has to be shifted by zeros only is not rounded. -/
theorem shiftToTargetExponent_exact (hm : m.log2 = 52) (k : Nat) (e : Int) (he : -1074 ≤ e + k) :
    shiftToTargetExponent .binary64 (m * 2 ^ k) e .exact = (⟨m, false, false⟩, e + k) := by
  have hm0 : m ≠ 0 := by
    rintro rfl
    simp at hm
  have htarget : Format.binary64.targetExponent (totalExponent (m * 2 ^ k) e) = e + k := by
    simp only [Format.targetExponent, totalExponent, log2_mul_two_pow hm0, hm, Format.mantissaBits,
      Format.minExponent]
    omega
  have hshift : (e + k - e).toNat = k := by omega
  simp only [shiftToTargetExponent, htarget, shiftToExponent, hshift]
  exact congrArg (·, e + (k : Int)) (repeat_shiftRightOne m k)

theorem roundWithAccuracy_exact (hm : m.log2 = 52) (hpos : 0 < m) (s : Sign) (k : Nat) (e : Int)
    (he : -1074 ≤ e + k) :
    roundWithAccuracy .binary64 s (m * 2 ^ k) e .exact = .finite s m (e + k) hpos := by
  have hsecond := shiftToTargetExponent_exact hm 0 (e + k) (by omega)
  rw [pow_zero, mul_one] at hsecond
  have hrounded : (⟨m, false, false⟩ : ExtendedMantissa).roundedMantissa = m := rfl
  simp only [roundWithAccuracy, shiftToTargetExponent_exact hm k e he, hrounded, hsecond]
  simp [hpos.ne']

theorem unpacked_ofNat (hn : 0 < n) (hlt : n < 2 ^ 53) : UnpackedFloat.ofNat .binary64 n =
      .finite .positive (n * 2 ^ (52 - n.log2)) (n.log2 - 52) (Nat.mul_pos hn (Nat.two_pow_pos _)) := by
  have hlog : n.log2 < 53 := (Nat.log2_lt hn.ne').2 hlt
  have hm : (n * 2 ^ (52 - n.log2)).log2 = 52 := by
    rw [log2_mul_two_pow hn.ne']
    omega
  have htarget : Format.binary64.targetExponent (totalExponent n 0) = n.log2 - 52 := by
    simp only [Format.targetExponent, totalExponent, Format.mantissaBits, Format.minExponent]
    omega
  have hshift : (0 - ((n.log2 : Int) - 52)).toNat = 52 - n.log2 := by omega
  have hcmp : compare (n : Int) 0 = .gt := by
    rw [compare_gt_iff_gt]
    exact_mod_cast hn
  have hround := roundWithAccuracy_exact hm (by positivity) .positive 0 ((n.log2 : Int) - 52)
    (by omega)
  rw [pow_zero, mul_one] at hround
  have he : (0 : Int) - ((52 - n.log2 : Nat) : Int) = n.log2 - 52 := by omega
  simp only [UnpackedFloat.ofNat, UnpackedFloat.ofInt, UnpackedFloat.normalize, hcmp,
    UnpackedFloat.round, htarget, decreaseExponent, hshift, Int.toNat_natCast, Nat.shiftLeft_eq,
    he, hround]
  simp

theorem packComponents_toNat (s : Sign) (e : BitVec 11) (m : BitVec 52) :
    (packComponents .binary64 s e m).toNat =
      s.toBitVec.toNat * 2 ^ 63 + e.toNat * 2 ^ 52 + m.toNat := by
  have h1 := m.isLt
  have h2 := e.isLt
  rw [packComponents, BitVec.toNat_append, ← Nat.shiftLeft_add_eq_or_of_lt h1, BitVec.toNat_append,
    ← Nat.shiftLeft_add_eq_or_of_lt h2, Nat.shiftLeft_eq, Nat.shiftLeft_eq]
  ring

theorem pack_normal (hm : m.log2 = 52) (hpos : 0 < m) (hlo : -1074 ≤ e) (hhi : e ≤ 971) :
    UnpackedFloat.pack .binary64 (.finite .positive m e hpos) =
      packComponents .binary64 .positive (BitVec.ofNat 11 (e + 1075).toNat)
        (BitVec.ofNat 52 m) := by
  have hbias : e + Format.binary64.exponentBias + Format.binary64.mantissaBitsWithoutImplicit =
      e + 1075 := by
    change e + (1023 : Nat) + (52 : Nat) = e + 1075
    omega
  have hfit : ¬ 2 ^ Format.binary64.exponentBits ≤ (e + 1075).toNat + 1 := by
    change ¬ 2 ^ 11 ≤ (e + 1075).toNat + 1
    omega
  simp only [UnpackedFloat.pack, hbias, hfit, if_false, hm]
  rfl

theorem toNat_pack_normal (hm : m.log2 = 52) (hpos : 0 < m) (hlo : -1074 ≤ e) (hhi : e ≤ 971) :
    (UnpackedFloat.pack .binary64 (.finite .positive m e hpos)).toNat =
      (e + 1075).toNat * 2 ^ 52 + m % 2 ^ 52 := by
  have hsign : Sign.positive.toBitVec.toNat = 0 := rfl
  rw [pack_normal hm hpos hlo hhi, packComponents_toNat, BitVec.toNat_ofNat, BitVec.toNat_ofNat,
    hsign]
  omega

theorem unpack_pack_normal (hm : m.log2 = 52) (hpos : 0 < m) (hlo : -1074 ≤ e) (hhi : e ≤ 971) :
    UnpackedFloat.unpack .binary64 (UnpackedFloat.pack .binary64 (.finite .positive m e hpos)) =
      .finite .positive m e hpos := by
  have hbounds := (Nat.log2_eq_iff hpos.ne').1 hm
  have hexp : (BitVec.ofNat 11 (e + 1075).toNat).toNat = (e + 1075).toNat := by
    rw [BitVec.toNat_ofNat]
    omega
  have hall : BitVec.ofNat 11 (e + 1075).toNat ≠ -1#11 := by
    intro h
    have := congrArg BitVec.toNat h
    rw [hexp] at this
    simp at this
    omega
  have hzero : BitVec.ofNat 11 (e + 1075).toNat ≠ 0#11 := by
    intro h
    have := congrArg BitVec.toNat h
    rw [hexp] at this
    simp at this
    omega
  have hmant : (1#1 ++ BitVec.ofNat 52 m).toNat = m := by
    rw [BitVec.toNat_append, ← Nat.shiftLeft_add_eq_or_of_lt (BitVec.ofNat 52 m).isLt,
      BitVec.toNat_ofNat, Nat.shiftLeft_eq]
    simp
    omega
  have hsign : Sign.ofBitVec (unpackSign (packComponents .binary64 .positive
      (BitVec.ofNat 11 (e + 1075).toNat) (BitVec.ofNat 52 m))) = .positive := by
    simp only [unpackSign, packComponents, BitVec.extractLsb]
    rw [BitVec.extractLsb'_append_eq_of_le (by decide),
      BitVec.extractLsb'_append_eq_of_le (by decide)]
    rfl
  rw [pack_normal hm hpos hlo hhi, UnpackedFloat.unpack]
  simp only [unpackMantissa_packComponents, unpackExponent_packComponents, hsign, hall, hzero,
    if_false, hmant, hexp]
  have hback : ((e + 1075).toNat : Int) - ((Format.binary64.exponentBias : Int) +
      (Format.binary64.mantissaBitsWithoutImplicit : Int)) = e := by
    change ((e + 1075).toNat : Int) - ((1023 : Nat) + (52 : Nat)) = e
    omega
  congr 1

theorem unpack_one : (Float.exactlyRepresentablePowersOfTen[0]).toModel.unpack =
    .finite .positive (2 ^ 52) (-52) (by decide) := rfl

theorem ofNat_toNat (hn : 0 < n) (hlt : n < 2 ^ 53) :
    (ofNat n).bits.toNat = (1023 + n.log2) * 2 ^ 52 + n * 2 ^ (52 - n.log2) % 2 ^ 52 := by
  have hlog : n.log2 < 53 := (Nat.log2_lt hn.ne').2 hlt
  have hpos : 0 < n * 2 ^ (52 - n.log2) := by positivity
  have hm : (n * 2 ^ (52 - n.log2)).log2 = 52 := by
    rw [log2_mul_two_pow hn.ne']
    omega
  have hlo : -1074 ≤ (n.log2 : Int) - 52 := by omega
  have hhi : (n.log2 : Int) - 52 ≤ 971 := by omega
  have hword : n.toUInt64.toNat = n := by
    rw [Nat.toUInt64, UInt64.toNat_ofNat']
    omega
  have hfactor : n.toUInt64.toFloat.toModel.unpack =
      .finite .positive (n * 2 ^ (52 - n.log2)) (n.log2 - 52) hpos := by
    change UnpackedFloat.unpack .binary64 (UnpackedFloat.pack .binary64
      (UnpackedFloat.ofNat .binary64 n.toUInt64.toNat)) = _
    rw [hword, unpacked_ofNat hn hlt]
    exact unpack_pack_normal hm hpos hlo hhi
  have hscaled : Float.ofNat n =
      n.toUInt64.toFloat * Float.exactlyRepresentablePowersOfTen[0] := by
    have hsmall : n < 2 ^ 53 ∧ 0 ≤ 22 := ⟨hlt, by decide⟩
    simp only [Float.ofNat, OfScientific.ofScientific, Float.ofScientific, dif_pos hsmall]
    rfl
  have hproduct : UnpackedFloat.mul .binary64 n.toUInt64.toFloat.toModel.unpack
      (Float.exactlyRepresentablePowersOfTen[0]).toModel.unpack =
      .finite .positive (n * 2 ^ (52 - n.log2)) (n.log2 - 52) hpos := by
    rw [hfactor, unpack_one]
    have h := roundWithAccuracy_exact hm hpos .positive 52 ((n.log2 : Int) - 52 + -52) (by omega)
    have he : (n.log2 : Int) - 52 + -52 + (52 : Nat) = n.log2 - 52 := by omega
    simp only [he] at h
    exact h
  have hbits : (ofNat n).bits.toBitVec = UnpackedFloat.pack .binary64
      (.finite .positive (n * 2 ^ (52 - n.log2)) (n.log2 - 52) hpos) := by
    rw [ofNat, hscaled, ← hproduct]
    rfl
  rw [← UInt64.toNat_toBitVec, hbits, toNat_pack_normal hm hpos hlo hhi]
  omega

theorem ofNat_leadingField (hn : 0 < n) (hlt : n < 2 ^ 53) :
    (ofNat n).leadingField = 1023 + n.log2 := by
  have h := Nat.mod_lt (n * 2 ^ (52 - n.log2)) (Nat.two_pow_pos 52)
  rw [leadingField, ofNat_toNat hn hlt]
  omega

theorem ofNat_significand (hn : 0 < n) (hlt : n < 2 ^ 53) :
    (ofNat n).significand = n * 2 ^ (52 - n.log2) := by
  have hlog : n.log2 < 53 := (Nat.log2_lt hn.ne').2 hlt
  have hne : n * 2 ^ (52 - n.log2) ≠ 0 := by positivity
  have hm : (n * 2 ^ (52 - n.log2)).log2 = 52 := by
    rw [log2_mul_two_pow hn.ne']
    omega
  have hbounds := (Nat.log2_eq_iff hne).1 hm
  rw [significand, ofNat_toNat hn hlt]
  omega

/-- Natural numbers up to `2 ^ 53` are exact. -/
theorem toInt?_ofNat (h : n ≤ 2 ^ 53) : (ofNat n).toInt? = some (n : Int) := by
  rcases Nat.eq_zero_or_pos n with rfl | hn
  · decide +kernel
  rcases h.eq_or_lt with rfl | hlt
  · decide +kernel
  have hlog : n.log2 < 53 := (Nat.log2_lt hn.ne').2 hlt
  have h1 : 1023 + n.log2 - 1075 = 0 := by omega
  have h2 : 1075 - (1023 + n.log2) = 52 - n.log2 := by omega
  rw [toInt?_eq_some_iff hn, ofNat_leadingField hn hlt, ofNat_significand hn hlt, h1, h2]
  exact ⟨by omega, by omega, by rw [pow_zero, mul_one]⟩

theorem ofNat_mul_two_pow {k : Nat} (hm : m.log2 = 52) (hk0 : 0 < k) (hk : k ≤ 971) :
    (ofNat (m * 2 ^ k)).bits.toNat = (1075 + k) * 2 ^ 52 + m % 2 ^ 52 := by
  have hpos : 0 < m := Nat.pos_of_ne_zero fun h => by simp [h] at hm
  have hbounds := (Nat.log2_eq_iff hpos.ne').1 hm
  have hlarge : ¬ (m * 2 ^ k < 2 ^ 53 ∧ 0 ≤ 22) := by
    have hpow : 2 ^ 1 ≤ 2 ^ k := Nat.pow_le_pow_right (by decide) hk0
    have hmul := Nat.mul_le_mul hbounds.1 hpow
    omega
  have hunpacked : UnpackedFloat.ofScientific .binary64 (m * 2 ^ k) 0 =
      .finite .positive m k hpos := by
    have hne : m * 2 ^ k ≠ 0 := by positivity
    have hhi : ¬ (0 : Int) > 2 ^ Format.binary64.exponentBits := by decide
    have hlo : ¬ (0 : Int) < -(2 ^ Format.binary64.exponentBits + ((m * 2 ^ k).log2 : Int)) := by
      have : (0 : Int) ≤ 2 ^ Format.binary64.exponentBits := by decide
      omega
    have hround := roundWithAccuracy_exact hm hpos .positive (k + 53) (-53) (by omega)
    have he : (-53 : Int) + ((k + 53 : Nat) : Int) = k := by omega
    have hshift : (m * 2 ^ k) <<< Format.binary64.mantissaBits * 10 ^ (0 : Int).toNat =
        m * 2 ^ (k + 53) := by
      rw [Nat.shiftLeft_eq]
      change m * 2 ^ k * 2 ^ 53 * 1 = m * 2 ^ (k + 53)
      ring
    simp only [he] at hround
    rw [UnpackedFloat.ofScientific, dif_neg hne, if_neg hhi, if_neg hlo, if_pos le_rfl, ← hround]
    simp only [UnpackedFloat.mul, hshift]
    rfl
  have hfloat : Float.ofNat (m * 2 ^ k) = ⟨Float.Model.ofScientific (m * 2 ^ k) 0⟩ := by
    simp only [Float.ofNat, OfScientific.ofScientific, Float.ofScientific, dif_neg hlarge]
    rfl
  have hbits : (ofNat (m * 2 ^ k)).bits.toBitVec =
      UnpackedFloat.pack .binary64 (.finite .positive m k hpos) := by
    rw [ofNat, hfloat, ← hunpacked]
    rfl
  rw [← UInt64.toNat_toBitVec, hbits, toNat_pack_normal hm hpos (by omega) (by omega)]
  omega

/-- The word of a positive integer is the one that the integer converts to. -/
theorem ofNat_of_toInt? (hn : 0 < n) (hx : x.toInt? = some (n : Int)) : ofNat n = x := by
  rcases le_or_gt n (2 ^ 53) with hle | hgt
  · exact eq_of_toInt?_eq hn (toInt?_ofNat hle) hx
  obtain ⟨hpos, hlt, hvalue⟩ := (toInt?_eq_some_iff hn).1 hx
  have hlog := congrArg Nat.log2 hvalue
  rw [log2_mul_two_pow x.significand_ne_zero, log2_mul_two_pow hn.ne', significand_log2] at hlog
  have hnlog : 53 ≤ n.log2 := (Nat.le_log2 hn.ne').2 hgt.le
  obtain ⟨k, hk⟩ : ∃ k, x.leadingField = 1075 + k := ⟨x.leadingField - 1075, by omega⟩
  have hnk : n = x.significand * 2 ^ k := by
    have h1 : x.leadingField - 1075 = k := by omega
    have h2 : 1075 - x.leadingField = 0 := by omega
    rw [h1, h2, pow_zero, mul_one] at hvalue
    exact hvalue.symm
  have hbits := ofNat_mul_two_pow x.significand_log2 (k := k) (by omega) (by omega)
  rw [← hnk] at hbits
  have hword : (ofNat n).bits = x.bits := by
    rw [← UInt64.toNat_inj, hbits]
    unfold significand
    unfold leadingField at hk
    omega
  cases x
  exact congrArg Number.mk hword

theorem zero_le_of_bits (h : x.bits.toNat ≤ 2047 * 2 ^ 52) : 0 ≤ x := by
  have hzero : (0 : Number).rank = 0 := rfl
  have hnan₀ : (0 : Number).isNaN = false := rfl
  have hnan : x.isNaN = false := by
    rw [Bool.eq_false_iff, ne_eq, isNaN_iff]
    omega
  have hrank : x.rank.toBitVec.toNat = x.bits.toNat := by
    rw [rank_toNat, if_neg (by omega), Nat.mod_eq_of_lt (by omega)]
  have hle : (0 : Int64) ≤ x.rank := by
    rw [Int64.le_iff_toInt_le, ← Int64.toInt_toBitVec, ← Int64.toInt_toBitVec,
      BitVec.toInt_eq_toNat_of_lt (x := x.rank.toBitVec) (by omega)]
    exact Int.natCast_nonneg _
  change lessEqual 0 x = true
  simpa [lessEqual, comparable, hnan, hnan₀, hzero] using hle

theorem zero_le_ofNat (h : n < 2 ^ 53) : 0 ≤ ofNat n := by
  rcases Nat.eq_zero_or_pos n with rfl | hn
  · decide +kernel
  have hlog : n.log2 < 53 := (Nat.log2_lt hn.ne').2 h
  refine zero_le_of_bits ?_
  rw [ofNat_toNat hn h]
  have hmod := Nat.mod_lt (n * 2 ^ (52 - n.log2)) (Nat.two_pow_pos 52)
  omega

end ScriptMachine.Number
