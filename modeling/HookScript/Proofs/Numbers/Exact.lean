import HookScript.Number.Binary
import HookScript.Operator
import Mathlib

/-!
The number that a float stands for, and the place in a sequence that it stands for. Floats come here in two forms:
taken apart as for printing, and unpacked as for comparing and converting. Both say the same.
-/

namespace HookScript.Number

open Float.Model Float.Model.UnpackedFloat

namespace Binary

def value? : Binary → Option ℚ
  | finite negative significand exponent => some ((if negative then -1 else 1) * significand * 2 ^ exponent)
  | _ => none

def isMinus : Sign → Bool
  | .negative => true
  | .positive => false

def ofUnpacked : UnpackedFloat → Binary
  | .notANumber => nan
  | .infinity sign => infinite (isMinus sign)
  | .zero sign => finite (isMinus sign) 0 leastExponent
  | .finite sign significand exponent _ => finite (isMinus sign) significand exponent

section

variable (bits : BitVec 64)

theorem toNat_unpackMantissa :
    (@unpackMantissa .binary64 bits).toNat = bits.toNat % powerOfTwo fractionBits := by
  simp only [unpackMantissa_def, BitVec.extractLsb'_toNat, powerOfTwo, fractionBits]
  simp

theorem toNat_unpackExponent :
    (@unpackExponent .binary64 bits).toNat =
      bits.toNat / powerOfTwo fractionBits % powerOfTwo exponentBits := by
  simp only [unpackExponent_def, BitVec.extractLsb'_toNat, powerOfTwo, fractionBits, exponentBits]
  simp [Nat.shiftRight_eq_div_pow]

theorem toNat_unpackSign :
    (@unpackSign .binary64 bits).toNat = bits.toNat / powerOfTwo (fractionBits + exponentBits) % 2 := by
  simp only [unpackSign_def, BitVec.extractLsb'_toNat, powerOfTwo, fractionBits, exponentBits]
  simp [Nat.shiftRight_eq_div_pow]

end

theorem isMinus_ofBitVec (sign : BitVec 1) : isMinus (Sign.ofBitVec sign) = decide (sign.toNat = 1) := by
  revert sign
  decide

theorem toNat_one_append {n : Nat} (fraction : BitVec n) : (1#1 ++ fraction).toNat = 2 ^ n + fraction.toNat := by
  rw [BitVec.toNat_append, ← Nat.shiftLeft_add_eq_or_of_lt fraction.isLt, Nat.shiftLeft_eq]
  simp

theorem ofBits_eq (bits : BitVec 64) :
    ofBits bits.toNat = ofUnpacked (UnpackedFloat.unpack .binary64 bits) := by
  have whole (f : BitVec 52) : f = 0#52 ↔ f.toNat = 0 := BitVec.toNat_inj.symm
  have least (e : BitVec 11) : e = 0#11 ↔ e.toNat = 0 := BitVec.toNat_inj.symm
  have largest (e : BitVec 11) : e = -1#11 ↔ e.toNat = powerOfTwo exponentBits - 1 := BitVec.toNat_inj.symm
  simp only [ofBits, UnpackedFloat.unpack, ← toNat_unpackMantissa, ← toNat_unpackExponent, ← toNat_unpackSign,
    whole, least, largest]
  split
  · split <;> simp only [ofUnpacked, isMinus_ofBitVec]
  · split
    · next small =>
      split
      · next zero => simp only [ofUnpacked, isMinus_ofBitVec, zero]
      · simp only [ofUnpacked, isMinus_ofBitVec, small]
        rfl
    · simp only [ofUnpacked, isMinus_ofBitVec]
      congr 1
      · exact (toNat_one_append _).symm
      · simp only [leastExponent, Format.exponentBias]
        omega

theorem ofFloat_eq (x : Float) : ofFloat x = ofUnpacked x.toModel.unpack := ofBits_eq x.toModel.toBits.toBitVec

end Binary

def value? (x : Float) : Option ℚ := (Binary.ofFloat x).value?

/-- The floor of a number, if that is a place among so many. -/
def place? (x : Float) (count : Nat) : Option Nat :=
  (value? x).bind fun q => if 0 ≤ q ∧ q < count then some ⌊q⌋₊ else none

theorem isNaN_of_value? {x : Float} {q : ℚ} (here : value? x = some q) : x.isNaN = false := by
  change x.toModel.unpack.isNaN = false
  rw [value?, Binary.ofFloat_eq] at here
  cases form : x.toModel.unpack with
  | notANumber =>
    rw [form] at here
    cases here
  | _ => rfl

theorem mantissa_shiftRight (em : ExtendedMantissa) (k : Nat) : (em >>> k).mantissa = em.mantissa / 2 ^ k := by
  induction k with
  | zero => exact (Nat.div_one _).symm
  | succ k ih =>
    have step : (em >>> (k + 1)).mantissa = (em >>> k).mantissa / 2 := rfl
    rw [step, ih, Nat.div_div_eq_div_mul, Nat.pow_succ]

theorem roundToInt_positive (significand : Nat) (exponent : Int) :
    roundToInt .positive significand exponent = ⌊(significand : ℚ) * 2 ^ exponent⌋₊ := by
  obtain ⟨k, rfl | rfl⟩ := Int.eq_nat_or_neg exponent
  · have shifted : roundToInt .positive significand k = (significand <<< k : Nat) := by
      simp [roundToInt, decreaseExponent, shiftToExponent, mantissa_shiftRight, Sign.apply,
        ExtendedMantissa.ofMantissaAndAccuracy]
    have whole : (significand : ℚ) * 2 ^ (k : Int) = ((significand <<< k : Nat) : ℚ) := by
      rw [Nat.shiftLeft_eq]
      push_cast
      rw [zpow_natCast]
    rw [shifted, whole, Nat.floor_natCast]
  · have shifted : roundToInt .positive significand (-k) = (significand / 2 ^ k : Nat) := by
      simp [roundToInt, decreaseExponent, shiftToExponent, mantissa_shiftRight, Sign.apply,
        ExtendedMantissa.ofMantissaAndAccuracy]
    have part : (significand : ℚ) * 2 ^ (-k : Int) = (significand : ℚ) / ((2 ^ k : Nat) : ℚ) := by
      push_cast
      rw [zpow_neg, zpow_natCast, div_eq_mul_inv]
    rw [shifted, part, Nat.floor_div_eq_div]

theorem toNat_ofNatClamp (n : Nat) : (UInt64.ofNatClamp n).toNat = min n (2 ^ 64 - 1) := by
  unfold UInt64.ofNatClamp
  split
  · next small =>
    rw [UInt64.toNat_ofNatLT]
    simp only [UInt64.size] at small
    omega
  · next large =>
    simp only [UInt64.size] at large ⊢
    rw [UInt64.toNat_ofNatLT]
    omega

theorem lt_zero_iff (x : Float) : x < 0 ↔ x.toModel.unpack.compare (.zero .positive) = some .lt := by
  have zero : (0 : Float).toModel.unpack = .zero .positive := rfl
  change decide (x.toModel < (0 : Float).toModel) = true ↔ _
  rw [decide_eq_true_iff]
  change x.toModel.unpack.lt (0 : Float).toModel.unpack = true ↔ _
  rw [zero, UnpackedFloat.lt, beq_iff_eq]

theorem position?_eq (x : Float) : Value.position? x =
    if x.toModel.unpack.compare (.zero .positive) = some .lt then none
    else some (min (x.toModel.unpack.toInt 0 (2 ^ 64 - 1)).toNat (2 ^ 64 - 1)) := by
  have reads : x.toUInt64.toNat = min (x.toModel.unpack.toInt 0 (2 ^ 64 - 1)).toNat (2 ^ 64 - 1) :=
    toNat_ofNatClamp _
  simp only [Value.position?, lt_zero_iff, reads]

theorem filter_min_lt {count : Nat} (few : count < 2 ^ 64) (n : Nat) :
    (some (min n (2 ^ 64 - 1))).filter (· < count) = if n < count then some n else none := by
  by_cases small : n < count
  · have exact : min n (2 ^ 64 - 1) = n := by omega
    rw [exact, if_pos small]
    exact Option.filter_some_pos (decide_eq_true small)
  · have large : ¬min n (2 ^ 64 - 1) < count := by omega
    rw [if_neg small]
    exact Option.filter_some_neg (decide_eq_false large)

theorem position?_filter {x : Float} {count : Nat} (number : x.isNaN = false) (few : count < 2 ^ 64) :
    (Value.position? x).filter (· < count) = place? x count := by
  have number : x.toModel.unpack.isNaN = false := number
  rw [position?_eq, place?, value?, Binary.ofFloat_eq]
  cases form : x.toModel.unpack with
  | notANumber =>
    rw [form] at number
    cases number
  | infinity sign =>
    cases sign with
    | negative => rfl
    | positive =>
      have none : ¬(2 ^ 64 - 1 : Int).toNat < count := by omega
      exact (filter_min_lt few _).trans (if_neg none)
  | zero sign =>
    refine (filter_min_lt few 0).trans ?_
    simp [Binary.ofUnpacked, Binary.value?]
  | finite sign significand exponent pos =>
    have size : (0 : ℚ) < significand * 2 ^ exponent := mul_pos (Nat.cast_pos.2 pos) (zpow_pos two_pos exponent)
    cases sign with
    | negative =>
      have below : ¬(0 : ℚ) ≤ -(significand * 2 ^ exponent) := by linarith
      simp [UnpackedFloat.compare, Binary.ofUnpacked, Binary.value?, Binary.isMinus, below]
    | positive =>
      refine (filter_min_lt few _).trans ?_
      simp [toInt, roundToInt_positive, Binary.ofUnpacked, Binary.value?, Binary.isMinus, Nat.floor_lt size.le,
        size.le]

end HookScript.Number
