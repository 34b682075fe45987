import Treewalk.Proofs.Numerals.Shortest

/-! What digits are read as. Digits without a sign give a number without a sign, finite or infinite. -/
namespace Treewalk.Number
open Float.Model (Format UnpackedFloat)
open Float.Model.UnpackedFloat

def Unsigned : UnpackedFloat → Prop
  | .notANumber => False
  | .infinity sign => sign = .positive
  | .zero sign => sign = .positive
  | .finite sign _ _ _ => sign = .positive

theorem unsignedCases {p : Prop} [Decidable p] {u : p → UnpackedFloat} {v : ¬ p → UnpackedFloat}
    (holds : ∀ h, Unsigned (u h)) (fails : ∀ h, Unsigned (v h)) : Unsigned (dite p u v) := by
  by_cases h : p
  · rw [dif_pos h]
    exact holds h
  · rw [dif_neg h]
    exact fails h

theorem roundUnsigned (spec : Format) (mantissa : Nat) (exponent : Int) (accuracy : Accuracy) :
    Unsigned (roundWithAccuracy spec .positive mantissa exponent accuracy) := by
  unfold roundWithAccuracy
  dsimp only
  exact unsignedCases (fun _ => rfl) (fun _ => rfl)

def isDivisor : UnpackedFloat → Bool
  | .finite .positive _ _ _ => true
  | _ => false

theorem divUnsigned (spec : Format) {u v : UnpackedFloat} (unsigned : Unsigned u) (divisor : isDivisor v = true) :
    Unsigned (div spec u v) := by
  obtain ⟨mantissa, exponent, some, rfl⟩ : ∃ mantissa exponent some, v = .finite .positive mantissa exponent some := by
    cases v with
    | finite sign mantissa exponent some =>
      cases sign with
      | positive => exact ⟨mantissa, exponent, some, rfl⟩
      | negative => cases divisor
    | _ => cases divisor
  cases u with
  | notANumber => exact unsigned.elim
  | infinity sign =>
    cases unsigned
    rfl
  | zero sign =>
    cases unsigned
    rfl
  | finite sign _ _ _ =>
    cases unsigned
    exact roundUnsigned ..

theorem ofScientificUnsigned (spec : Format) (m : Nat) (e : Int) : Unsigned (ofScientific spec m e) := by
  unfold ofScientific
  refine unsignedCases (fun _ => rfl) fun _ => ?_
  refine unsignedCases (fun _ => rfl) fun _ => ?_
  refine unsignedCases (fun _ => rfl) fun _ => ?_
  refine unsignedCases (fun _ => roundUnsigned ..) fun _ => ?_
  exact divUnsigned spec (u := .finite .positive _ _ _) rfl rfl

theorem ofNatUnsigned (spec : Format) (n : Nat) : Unsigned (ofNat spec n) := by
  unfold ofNat ofInt UnpackedFloat.normalize
  split
  · rename_i negative
    exact absurd (compare_lt_iff_lt.mp negative) (by omega)
  · rfl
  · exact roundUnsigned ..

def UnsignedBits (bits : BitVec Format.binary64.numBits) : Prop :=
  ∃ (exponent : BitVec 11) (fraction : BitVec 52), bits = packComponents .binary64 .positive exponent fraction ∧
    (exponent = -1#11 → fraction = 0#52)

theorem packUnsigned {u : UnpackedFloat} (unsigned : Unsigned u) : UnsignedBits (pack .binary64 u) := by
  cases u with
  | notANumber => exact unsigned.elim
  | infinity sign =>
    cases unsigned
    exact ⟨_, _, rfl, fun _ => rfl⟩
  | zero sign =>
    cases unsigned
    exact ⟨_, _, rfl, fun _ => rfl⟩
  | finite sign mantissa exponent some =>
    cases unsigned
    unfold pack
    dsimp only
    split
    · exact ⟨_, _, rfl, fun _ => rfl⟩
    rename_i room
    split
    · refine ⟨_, _, rfl, fun same => absurd (congrArg BitVec.toNat same) ?_⟩
      have top : (-1#11 : BitVec 11).toNat = 2047 := rfl
      rw [BitVec.toNat_ofNat, Nat.mod_eq_of_lt (by omega), top]
      omega
    · exact ⟨_, _, rfl, fun same => absurd same (by decide)⟩

section Bits
variable (exponent : BitVec 11) (fraction : BitVec 52)

theorem unsignedValue : (packComponents .binary64 .positive exponent fraction).toNat =
    exponent.toNat * 2 ^ 52 + fraction.toNat := by
  rw [packComponents, BitVec.toNat_append, BitVec.toNat_append, ← Nat.shiftLeft_add_eq_or_of_lt fraction.isLt,
    Nat.shiftLeft_eq]
  simp [Sign.toBitVec]

theorem unsignedSign : unpackSign (packComponents .binary64 .positive exponent fraction) = 0#1 := by
  have field := exponent.isLt
  have rest := fraction.isLt
  refine BitVec.eq_of_toNat_eq ((BitVec.extractLsb_toNat ..).trans ?_)
  rw [unsignedValue, Nat.shiftRight_eq_div_pow]
  simp only [BitVec.toNat_zero]
  omega

end Bits

theorem unpackUnsigned {bits : BitVec Format.binary64.numBits} (unsigned : UnsignedBits bits) :
    Unsigned (unpack .binary64 bits) := by
  obtain ⟨exponent, fraction, rfl, number⟩ := unsigned
  have positive : Sign.ofBitVec (unpackSign (packComponents .binary64 .positive exponent fraction)) = .positive := by
    rw [unsignedSign]
    rfl
  unfold unpack
  dsimp only
  refine unsignedCases (fun top => ?_) (fun _ => unsignedCases (fun _ => ?_) (fun _ => positive))
  · have top := (unpackExponent_packComponents ..).symm.trans top
    rw [if_pos ((unpackMantissa_packComponents ..).trans (number top))]
    exact positive
  · exact unsignedCases (fun _ => positive) (fun _ => positive)

theorem unsignedMagnitude {x : Float} (unsigned : UnsignedBits x.toBits.toBitVec) :
    isNegative x = false ∧ magnitude x ≠ .nan := by
  obtain ⟨exponent, fraction, bits, number⟩ := unsigned
  have value : x.toBits.toNat = exponent.toNat * 2 ^ 52 + fraction.toNat :=
    (congrArg BitVec.toNat bits).trans (unsignedValue exponent fraction)
  have field := exponent.isLt
  have rest := fraction.isLt
  constructor
  · rw [isNegative, beq_eq_false_iff_ne, Nat.shiftRight_eq_div_pow]
    omega
  · have top : x.toBits.toNat / 2 ^ 52 % 2048 = exponent.toNat := by omega
    have low : x.toBits.toNat % 2 ^ 52 = fraction.toNat := by omega
    simp only [magnitude, Magnitude.ofBits, Nat.shiftRight_eq_div_pow, Nat.one_shiftLeft, top, low]
    split
    · rename_i all
      have none : fraction.toNat = 0 := congrArg BitVec.toNat (number (BitVec.eq_of_toNat_eq all))
      rw [if_pos none]
      exact Magnitude.noConfusion
    split <;> exact Magnitude.noConfusion

theorem powersDivide {e : Nat} (few : e < Float.exactlyRepresentablePowersOfTen.size) :
    isDivisor Float.exactlyRepresentablePowersOfTen[e].toModel.unpack = true := by
  have all : Float.exactlyRepresentablePowersOfTen.all (fun p => isDivisor p.toModel.unpack) = true := by
    decide +kernel
  exact Array.all_eq_true.mp all e few

theorem ofDigitsUnsigned (whole fraction : List Char) :
    isNegative (ofDigits whole fraction) = false ∧ magnitude (ofDigits whole fraction) ≠ .nan := by
  refine unsignedMagnitude ?_
  unfold ofDigits Float.ofScientific
  split
  · rename_i fast
    exact packUnsigned (divUnsigned .binary64 (unpackUnsigned (packUnsigned (ofNatUnsigned ..)))
      (powersDivide (Nat.lt_succ_of_le fast.2)))
  · exact packUnsigned (ofScientificUnsigned ..)

theorem ofDigitsCounted {whole fraction : List Char} (bounded : magnitude (ofDigits whole fraction) ≠ .infinite) :
    Counted (ofDigits whole fraction) := by
  obtain ⟨positive, number⟩ := ofDigitsUnsigned whole fraction
  refine ⟨positive, ?_⟩
  cases size : magnitude (ofDigits whole fraction) with
  | finite d => exact ⟨d, rfl⟩
  | infinite => exact absurd size bounded
  | nan => exact absurd size number

end Treewalk.Number
