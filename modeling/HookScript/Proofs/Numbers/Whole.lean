import HookScript.Proofs.Numbers.Exact

/-!
Whole numbers as floats. Up to 2 ^ 53 they are exact, so the length of a list and the place of an item are what they
are said to be, and a place that has been found can be used again.
-/

namespace HookScript.Number

open Float.Model Float.Model.UnpackedFloat

theorem shiftRight_exact (m k : Nat) : (ExtendedMantissa.mk (m * 2 ^ k) false false) >>> k = ⟨m, false, false⟩ := by
  induction k generalizing m with
  | zero =>
    rw [Nat.pow_zero, Nat.mul_one]
    rfl
  | succ k ih =>
    -- The repeated shift ends with a single one; before it the significand is still twice as large.
    have step : ExtendedMantissa.mk (m * 2 ^ (k + 1)) false false >>> (k + 1) =
        (ExtendedMantissa.mk (m * 2 * 2 ^ k) false false >>> k).shiftRightOne := by
      rw [Nat.pow_succ, Nat.mul_comm (2 ^ k), ← Nat.mul_assoc]
      rfl
    rw [step, ih]
    simp [ExtendedMantissa.shiftRightOne]

structure Normal (significand : Nat) (exponent : Int) : Prop where
  least : 2 ^ 52 ≤ significand
  greatest : significand < 2 ^ 53
  above : -1074 ≤ exponent
  below : exponent ≤ 971

namespace Normal

variable {significand : Nat} {exponent : Int} (normal : Normal significand exponent)
include normal

theorem pos : 0 < significand := Nat.lt_of_lt_of_le (Nat.two_pow_pos 52) normal.least

theorem log2_eq : significand.log2 = 52 :=
  (Nat.log2_eq_iff normal.pos.ne').2 ⟨normal.least, normal.greatest⟩

theorem unpack_pack (sign : Sign) :
    (Float.Model.pack (.finite sign significand exponent normal.pos)).unpack =
      .finite sign significand exponent normal.pos := by
  have := normal.above
  have := normal.below
  have := normal.least
  have := normal.greatest
  have biased : (BitVec.ofNat 11 (exponent + 1023 + 52).toNat).toNat = (exponent + 1023 + 52).toNat := by
    rw [BitVec.toNat_ofNat, Nat.mod_eq_of_lt (by omega)]
  have fits : ¬2 ^ 11 ≤ (exponent + 1023 + 52).toNat + 1 := by omega
  have full : significand.log2 + 1 = 53 := by rw [normal.log2_eq]
  have packed : UnpackedFloat.pack .binary64 (.finite sign significand exponent normal.pos) =
      packComponents .binary64 sign (BitVec.ofNat 11 (exponent + 1023 + 52).toNat) (BitVec.ofNat 52 significand) :=
    (if_neg fits).trans (if_pos full)
  have fraction : (1#1 ++ BitVec.ofNat 52 significand).toNat = significand := by
    rw [Binary.toNat_one_append, BitVec.toNat_ofNat]
    omega
  have notLeast : BitVec.ofNat 11 (exponent + 1023 + 52).toNat ≠ 0#11 := by
    rw [ne_eq, ← BitVec.toNat_inj, biased]
    change (exponent + 1023 + 52).toNat ≠ 0
    omega
  have notLargest : BitVec.ofNat 11 (exponent + 1023 + 52).toNat ≠ -1#11 := by
    rw [ne_eq, ← BitVec.toNat_inj, biased]
    change (exponent + 1023 + 52).toNat ≠ 2047
    omega
  change UnpackedFloat.unpack .binary64
    (UnpackedFloat.pack .binary64 (.finite sign significand exponent normal.pos)) = _
  rw [packed, UnpackedFloat.unpack]
  simp only [unpackMantissa_packComponents, unpackExponent_packComponents, unpackSign_packComponents,
    Sign.ofBitVec_toBitVec, notLeast, notLargest, if_false, fraction, biased]
  congr 1
  change ((exponent + 1023 + 52).toNat : Int) - (1023 + 52) = exponent
  omega

theorem shiftToTargetExponent_exact (k : Nat) :
    shiftToTargetExponent .binary64 (significand * 2 ^ k) (exponent - k) .exact =
      (⟨significand, false, false⟩, exponent) := by
  have := normal.above
  have length : (significand * 2 ^ k).log2 = 52 + k := by
    rw [Nat.log2_eq_iff (Nat.mul_pos normal.pos (Nat.two_pow_pos k)).ne', Nat.pow_add, Nat.add_right_comm, Nat.pow_add]
    exact ⟨Nat.mul_le_mul_right _ normal.least, Nat.mul_lt_mul_of_pos_right normal.greatest (Nat.two_pow_pos k)⟩
  have target : Format.binary64.targetExponent (totalExponent (significand * 2 ^ k) (exponent - k)) = exponent := by
    rw [totalExponent, length]
    change max (((52 + k : Nat) : Int) + 1 + (exponent - k) - 53) (-1074) = exponent
    omega
  have amount : (exponent - (exponent - k)).toNat = k := by omega
  rw [shiftToTargetExponent, target]
  simp only [shiftToExponent, amount, ExtendedMantissa.ofMantissaAndAccuracy, shiftRight_exact, sub_add_cancel]

theorem roundWithAccuracy_exact (sign : Sign) (k : Nat) :
    roundWithAccuracy .binary64 sign (significand * 2 ^ k) (exponent - k) .exact =
      .finite sign significand exponent normal.pos := by
  have again := normal.shiftToTargetExponent_exact 0
  simp only [Nat.pow_zero, Nat.mul_one, Int.natCast_zero, Int.sub_zero] at again
  have rounded : (ExtendedMantissa.mk significand false false).roundedMantissa = significand := rfl
  simp only [roundWithAccuracy, normal.shiftToTargetExponent_exact k, rounded, again, normal.pos.ne', dif_neg,
    not_false_eq_true]

end Normal

section

variable {n : Nat} (pos : 0 < n) (small : n < 2 ^ 53)
include pos small

theorem normal_of_lt : Normal (n * 2 ^ (52 - n.log2)) (n.log2 - 52) := by
  have length : n.log2 < 53 := (Nat.log2_lt pos.ne').2 small
  have whole : 52 = n.log2 + (52 - n.log2) := by omega
  refine ⟨?_, ?_, by omega, by omega⟩
  · conv_lhs => rw [whole, Nat.pow_add]
    exact Nat.mul_le_mul_right _ (Nat.log2_self_le pos.ne')
  · have more : n * 2 ^ (52 - n.log2) < 2 ^ (n.log2 + 1) * 2 ^ (52 - n.log2) :=
      Nat.mul_lt_mul_of_pos_right Nat.lt_log2_self (Nat.two_pow_pos _)
    rw [← Nat.pow_add] at more
    exact lt_of_lt_of_eq more (congrArg (2 ^ ·) (by omega))

theorem round_of_lt :
    UnpackedFloat.round .binary64 .positive n 0 =
      .finite .positive (n * 2 ^ (52 - n.log2)) (n.log2 - 52) (normal_of_lt pos small).pos := by
  have length : n.log2 < 53 := (Nat.log2_lt pos.ne').2 small
  have target : Format.binary64.targetExponent (totalExponent n 0) = n.log2 - 52 := by
    change max ((n.log2 : Int) + 1 + 0 - 53) (-1074) = _
    omega
  have exact := (normal_of_lt pos small).roundWithAccuracy_exact .positive 0
  have amount : (0 - ((n.log2 : Int) - 52)).toNat = 52 - n.log2 := by omega
  have left : (0 - ((52 - n.log2 : Nat) : Int)) = n.log2 - 52 := by omega
  simp only [Nat.pow_zero, Nat.mul_one, Int.natCast_zero, Int.sub_zero] at exact
  simp only [UnpackedFloat.round, target, decreaseExponent, amount, Nat.shiftLeft_eq, left, exact]

theorem unpack_toFloat : n.toUInt64.toFloat.toModel.unpack =
    .finite .positive (n * 2 ^ (52 - n.log2)) (n.log2 - 52) (normal_of_lt pos small).pos := by
  have whole : n.toUInt64.toNat = n := Nat.mod_eq_of_lt (by omega)
  have sign : compare (n : Int) 0 = .gt := compare_gt_iff_gt.2 (Int.natCast_pos.2 pos)
  have rounded : UnpackedFloat.ofUInt64 .binary64 n.toUInt64 = UnpackedFloat.round .binary64 .positive n 0 := by
    simp only [UnpackedFloat.ofUInt64, UnpackedFloat.ofNat, UnpackedFloat.ofInt, UnpackedFloat.normalize, whole,
      sign, Int.toNat_natCast]
  change (Float.Model.pack (UnpackedFloat.ofUInt64 .binary64 n.toUInt64)).unpack = _
  rw [rounded, round_of_lt pos small, (normal_of_lt pos small).unpack_pack]

theorem unpack_ofNat : (Float.ofNat n).toModel.unpack =
    .finite .positive (n * 2 ^ (52 - n.log2)) (n.log2 - 52) (normal_of_lt pos small).pos := by
  have normal := normal_of_lt pos small
  have taken : Float.ofNat n = n.toUInt64.toFloat * 1 := dif_pos ⟨small, Nat.zero_le 22⟩
  have one : (1 : Float).toModel.unpack = .finite .positive (2 ^ 52) (-52) (Nat.two_pow_pos 52) := rfl
  have product : UnpackedFloat.mul .binary64 n.toUInt64.toFloat.toModel.unpack (1 : Float).toModel.unpack =
      .finite .positive (n * 2 ^ (52 - n.log2)) (n.log2 - 52) normal.pos := by
    rw [unpack_toFloat pos small, one]
    exact normal.roundWithAccuracy_exact .positive 52
  rw [taken]
  change (Float.Model.pack (UnpackedFloat.mul .binary64 n.toUInt64.toFloat.toModel.unpack
    (1 : Float).toModel.unpack)).unpack = _
  rw [product, normal.unpack_pack]

end

theorem value?_ofNat {n : Nat} (small : n ≤ 2 ^ 53) : value? (Float.ofNat n) = some (n : ℚ) := by
  rcases Nat.eq_zero_or_pos n with rfl | pos
  · have zero : (Float.ofNat 0).toModel.unpack = .zero .positive := rfl
    simp [value?, Binary.ofFloat_eq, zero, Binary.ofUnpacked, Binary.value?]
  · rcases Nat.lt_or_eq_of_le small with small | rfl
    · have length : n.log2 < 53 := (Nat.log2_lt pos.ne').2 small
      have digits : ((n : ℚ) * 2 ^ (52 - n.log2)) * 2 ^ ((n.log2 : Int) - 52) = n := by
        have back : ((n.log2 : Int) - 52) = -((52 - n.log2 : Nat) : Int) := by omega
        rw [back, zpow_neg, zpow_natCast, mul_assoc, mul_inv_cancel₀ (by positivity), mul_one]
      rw [value?, Binary.ofFloat_eq, unpack_ofNat pos small]
      simpa [Binary.ofUnpacked, Binary.value?, Binary.isMinus] using digits
    · have bits : (Float.ofNat (2 ^ 53)).toBits = 0x4340000000000000 := by decide +kernel
      have here : Binary.ofFloat (Float.ofNat (2 ^ 53)) = .finite false (2 ^ 52) 1 := by
        rw [Binary.ofFloat, bits]
        decide
      rw [value?, here]
      norm_num [Binary.value?]

theorem value?_neg_one : value? (-1) = some (-1) := by
  have here : Binary.ofFloat (-1) = .finite true (2 ^ 52) (-52) := rfl
  rw [value?, here]
  norm_num [Binary.value?]

theorem place?_ofNat {n count : Nat} (inside : n < count) (small : n ≤ 2 ^ 53) :
    place? (Float.ofNat n) count = some n := by
  have within : (0 : ℚ) ≤ n ∧ (n : ℚ) < count := ⟨Nat.cast_nonneg n, Nat.cast_lt.2 inside⟩
  rw [place?, value?_ofNat small, Option.bind_some, if_pos within, Nat.floor_natCast]

theorem place?_neg_one (count : Nat) : place? (-1) count = none := by
  rw [place?, value?_neg_one]
  norm_num

end HookScript.Number
