import Mathlib.Algebra.Order.Ring.Rat
import Mathlib.Data.Nat.Cast.Field
import Mathlib.Tactic.Linarith
import Mathlib.Tactic.Positivity
import Mathlib.Tactic.Ring
import Treewalk.Proofs.Numerals

/-! The reals that round to a binary number. The shortest digits of a number are found among them before the search
ends, and no real rounds to two numbers; so digits found for one number are not found for another. -/
namespace Treewalk

def Within (low high : ℚ) (closed : Bool) (q : ℚ) : Prop :=
  (low < q ∨ closed = true ∧ low = q) ∧ (q < high ∨ closed = true ∧ q = high)

theorem withinScaled {low high q unit : ℚ} {closed : Bool} (positive : 0 < unit) :
    Within (low * unit) (high * unit) closed (q * unit) ↔ Within low high closed q := by
  simp only [Within, mul_lt_mul_iff_left₀ positive, mul_left_inj' positive.ne']

theorem withinMeets {low high low' high' q : ℚ} {closed closed' : Bool} (order : high ≤ low')
    (one : Within low high closed q) (two : Within low' high' closed' q) :
    high = low' ∧ closed = true ∧ closed' = true := by
  rcases one.2 with below | ⟨closes, top⟩
  · rcases two.1 with above | ⟨_, bottom⟩
    · exact absurd (below.trans_le order) above.not_gt
    · exact absurd (below.trans_le order) bottom.not_gt
  · rcases two.1 with above | ⟨closes', bottom⟩
    · exact absurd (top.trans_le order) above.not_ge
    · exact ⟨top.symm.trans bottom.symm, closes, closes'⟩

theorem powerParted {base : ℚ} (some : base ≠ 0) (scale : Int) :
    base ^ scale * base ^ (-scale).toNat = base ^ scale.toNat := by
  obtain ⟨n, rfl | rfl⟩ := scale.eq_nat_or_neg
  · simp
  · simp [some]

theorem eightsBelowTens (k : Nat) : 2 ^ (3 * k) ≤ 10 ^ k := by
  rw [Nat.pow_mul]
  exact Nat.pow_le_pow_left (by decide) k

namespace Dyadic
namespace Interval
variable {i : Interval}

def Holds (i : Interval) (q : ℚ) : Prop := Within i.low i.high i.closed (q * i.denominator)

theorem containsWithin {n : Nat} (inside : i.contains n = true) :
    Within i.low i.high i.closed (n * i.denominator) := by
  simp only [contains, Bool.and_eq_true, Bool.or_eq_true, decide_eq_true_eq, beq_iff_eq] at inside
  unfold Within
  exact_mod_cast inside

theorem rescaledHolds {scale : Int} {n : Nat} (inside : (i.rescale scale).contains n = true) :
    i.Holds (n * 10 ^ scale) := by
  have within := containsWithin inside
  have unit : (0 : ℚ) < 10 ^ (-scale).toNat := by positivity
  have same : (n : ℚ) * (i.denominator * 10 ^ scale.toNat) =
      n * 10 ^ scale * i.denominator * 10 ^ (-scale).toNat := by
    rw [← powerParted (by norm_num) scale]
    ring
  simp only [rescale, Nat.pow_eq, Nat.cast_mul, Nat.cast_pow, Nat.cast_ofNat, same] at within
  exact (withinScaled unit).mp within

theorem nearestContained {tie : Tie} {n : Nat} (found : i.nearest? tie = some n) : i.contains n = true := by
  cases floor : i.contains (i.value / i.denominator) <;> cases above : i.contains (i.value / i.denominator + 1) <;>
    simp only [nearest?, floor, above] at found
  case false.false => cases found
  case false.true => exact Option.some.inj found ▸ above
  case true.false => exact Option.some.inj found ▸ floor
  case true.true =>
    have one : n = i.value / i.denominator ∨ n = i.value / i.denominator + 1 := by
      grind
    rcases one with rfl | rfl
    · exact floor
    · exact above

/- A grid that is finer than the interval is wide meets it on one side of the value. -/
theorem nearestFound (tie : Tie) (positive : 0 < i.denominator) (below : i.low < i.value) (above : i.value < i.high)
    (fine : i.denominator < i.high - i.low) : i.nearest? tie ≠ none := by
  have floor : i.value / i.denominator * i.denominator ≤ i.value := Nat.div_mul_le_self ..
  have next : i.value < (i.value / i.denominator + 1) * i.denominator :=
    (Nat.div_lt_iff_lt_mul positive).mp (Nat.lt_succ_self _)
  have hit : i.contains (i.value / i.denominator) = true ∨ i.contains (i.value / i.denominator + 1) = true := by
    simp only [contains, Bool.and_eq_true, Bool.or_eq_true, decide_eq_true_eq]
    rw [Nat.succ_mul] at next ⊢
    omega
  unfold nearest?
  grind

theorem leadingBelowOneLeast {denominator steps value : Nat} (reached : denominator ≤ value * 10 ^ steps) :
    ∃ k : Nat, leadingBelowOne denominator steps value = -k ∧ denominator ≤ value * 10 ^ k := by
  induction steps generalizing value with
  | zero => exact ⟨0, rfl, reached⟩
  | succ steps ih =>
    unfold leadingBelowOne
    split
    · rename_i enough
      exact ⟨0, rfl, by simpa using enough⟩
    · have later : denominator ≤ 10 * value * 10 ^ steps := by
        rw [Nat.pow_succ] at reached
        linarith
      obtain ⟨k, found, enough⟩ := ih later
      refine ⟨k + 1, by rw [found]; push_cast; ring, ?_⟩
      rw [Nat.pow_succ]
      linarith

theorem leadingLeast (positive : 0 < i.denominator) (reached : i.denominator ≤ i.value * 10 ^ 400) :
    (i.denominator * 10 ^ i.leading : ℚ) ≤ i.value := by
  unfold leading
  split
  · rename_i whole
    have one : 0 < i.value / i.denominator := Nat.div_pos whole positive
    have some : 0 < (Nat.toDigits 10 (i.value / i.denominator)).length := Nat.length_toDigits_pos
    generalize size : (Nat.toDigits 10 (i.value / i.denominator)).length = length at some
    obtain ⟨k, rfl⟩ : ∃ k, length = k + 1 := ⟨length - 1, by omega⟩
    have least : 10 ^ k ≤ i.value / i.denominator := by
      cases k with
      | zero => exact one
      | succ k =>
        by_contra small
        have short := (Nat.length_toDigits_le_iff (by decide) (Nat.succ_pos k)).mpr (Nat.lt_of_not_le small)
        omega
    have product := (Nat.le_div_iff_mul_le positive).mp least
    rw [show ((k + 1 : Nat) - 1 : Int) = k by omega, zpow_natCast, mul_comm]
    exact_mod_cast product
  · obtain ⟨k, found, enough⟩ := leadingBelowOneLeast reached
    rw [found, zpow_neg, zpow_natCast, ← div_eq_mul_inv, div_le_iff₀ (by positivity)]
    exact_mod_cast enough

/- Sixteen places after the first digit the grid is finer than the interval is wide. -/
theorem seventeenSuffice (tie : Tie) (positive : 0 < i.denominator) (below : i.low < i.value) (above : i.value < i.high)
    (reached : i.denominator ≤ i.value * 10 ^ 400) (wide : i.value < (i.high - i.low) * 10 ^ 16) :
    (i.rescale (i.leading - 16)).nearest? tie ≠ none := by
  have least := leadingLeast positive reached
  have unit : 0 < 10 ^ (-(i.leading - 16)).toNat := by positivity
  have grid : (i.denominator * 10 ^ (i.leading - 16).toNat : ℚ) =
      i.denominator * 10 ^ i.leading / 10 ^ 16 * 10 ^ (-(i.leading - 16)).toNat := by
    rw [← powerParted (by norm_num) (i.leading - 16), zpow_sub₀ (by norm_num)]
    norm_cast
    ring
  refine nearestFound tie ?_ ?_ ?_ ?_ <;> simp only [rescale, Nat.pow_eq]
  · positivity
  · exact Nat.mul_lt_mul_of_pos_right below unit
  · exact Nat.mul_lt_mul_of_pos_right above unit
  · have fine : (i.denominator * 10 ^ i.leading / 10 ^ 16 : ℚ) < (i.high - i.low : Nat) := by
      rw [div_lt_iff₀ (by positivity)]
      exact least.trans_lt (by exact_mod_cast wide)
    rw [← Nat.sub_mul]
    have goal := mul_lt_mul_of_pos_right fine (show (0 : ℚ) < 10 ^ (-(i.leading - 16)).toNat by positivity)
    rw [← grid] at goal
    exact_mod_cast goal

end Interval

variable {i : Interval}

theorem searchHolds {tie : Tie} {tries : Nat} {scale : Int}
    (found : ∃ k : Nat, k < tries ∧ (i.rescale (scale - k)).nearest? tie ≠ none) :
    ∃ n s, search tie i tries scale = .ofScaled n s ∧ i.Holds (n * 10 ^ s) := by
  induction tries generalizing scale with
  | zero =>
    obtain ⟨k, few, _⟩ := found
    omega
  | succ tries ih =>
    unfold search
    cases here : (i.rescale scale).nearest? tie with
    | some n => exact ⟨n, scale, rfl, Interval.rescaledHolds (Interval.nearestContained here)⟩
    | none =>
      refine ih ?_
      obtain ⟨k, few, later⟩ := found
      cases k with
      | zero =>
        rw [Nat.cast_zero, sub_zero] at later
        exact absurd here later
      | succ k =>
        refine ⟨k, by omega, ?_⟩
        rwa [show scale - 1 - (k : Int) = scale - (k + 1 : Nat) by push_cast; ring]

def Canonical (d : Dyadic) : Prop :=
  d.mantissa < 2 ^ 53 ∧ -1074 ≤ d.exponent ∧ (2 ^ 52 ≤ d.mantissa ∨ d.exponent = -1074)

/- Quarters of the last place by which the interval goes below its number. -/
def quartersBelow (d : Dyadic) : Nat := if d.mantissa = 2 ^ 52 ∧ d.exponent ≠ -1074 then 1 else 2

section Rounding
variable {d : Dyadic}

theorem intervalHolds {q : ℚ} : d.interval.Holds q ↔
    Within ((4 * d.mantissa - d.quartersBelow : Nat) * 2 ^ (d.exponent - 2))
      ((4 * d.mantissa + 2 : Nat) * 2 ^ (d.exponent - 2)) (d.mantissa % 2 = 0) q := by
  have unit : (0 : ℚ) < 2 ^ (-(d.exponent - 2)).toNat := by positivity
  rw [← withinScaled unit, mul_assoc, mul_assoc, powerParted (by norm_num)]
  simp [Interval.Holds, interval, quartersBelow, Nat.shiftLeft_eq]

theorem quartersCases : d.quartersBelow = 2 ∨ d.quartersBelow = 1 ∧ d.mantissa = 2 ^ 52 := by
  unfold quartersBelow
  split
  · rename_i power
    exact .inr ⟨rfl, power.1⟩
  · exact .inl rfl

theorem shortestHolds (canonical : d.Canonical) (some : 0 < d.mantissa) (tie : Tie) :
    ∃ n s, d.shortest tie = .ofScaled n s ∧ d.interval.Holds (n * 10 ^ s) := by
  obtain ⟨small, least, _⟩ := canonical
  have unit : 0 < 2 ^ (d.exponent - 2).toNat := by positivity
  have denominator : d.interval.denominator = 2 ^ (-(d.exponent - 2)).toNat := by simp [interval, Nat.shiftLeft_eq]
  have value : d.interval.value = 4 * d.mantissa * 2 ^ (d.exponent - 2).toNat := by simp [interval, Nat.shiftLeft_eq]
  have low : d.interval.low = (4 * d.mantissa - d.quartersBelow) * 2 ^ (d.exponent - 2).toNat := by
    simp [interval, quartersBelow, Nat.shiftLeft_eq]
  have high : d.interval.high = (4 * d.mantissa + 2) * 2 ^ (d.exponent - 2).toNat := by
    simp [interval, Nat.shiftLeft_eq]
  have quarters := quartersCases (d := d)
  refine searchHolds ⟨16, by decide, Interval.seventeenSuffice tie ?_ ?_ ?_ ?_ ?_⟩
  · rw [denominator]
    positivity
  · rw [low, value]
    exact Nat.mul_lt_mul_of_pos_right (by omega) unit
  · rw [value, high]
    exact Nat.mul_lt_mul_of_pos_right (by omega) unit
  · rw [denominator, value]
    calc 2 ^ (-(d.exponent - 2)).toNat ≤ 2 ^ (3 * 400) := Nat.pow_le_pow_right (by decide) (by omega)
      _ ≤ 10 ^ 400 := eightsBelowTens 400
      _ ≤ _ := Nat.le_mul_of_pos_left _ (by positivity)
  · rw [value, low, high, ← Nat.sub_mul, Nat.mul_right_comm _ (2 ^ _)]
    exact Nat.mul_lt_mul_of_pos_right (by omega) unit

theorem naturalValue {n : Nat} (natural : d.natural? = some n) : (n : ℚ) = d.mantissa * 2 ^ d.exponent := by
  unfold natural? at natural
  split at natural
  · rename_i whole
    cases natural
    conv_rhs => rw [← Int.toNat_of_nonneg whole, zpow_natCast]
    rw [Nat.shiftLeft_eq, Nat.cast_mul, Nat.cast_pow, Nat.cast_ofNat]
  · rename_i part
    simp only [Nat.one_shiftLeft] at natural
    split at natural
    · rename_i divides
      cases natural
      have exponent : d.exponent = -((-d.exponent).toNat : Int) := by omega
      have unit : ((2 ^ (-d.exponent).toNat : Nat) : ℚ) ≠ 0 := by positivity
      conv_rhs => rw [exponent, zpow_neg, zpow_natCast, ← div_eq_mul_inv]
      rw [Nat.cast_div (Nat.dvd_of_mod_eq_zero divides) unit, Nat.cast_pow, Nat.cast_ofNat]
    · cases natural

theorem naturalHolds {n : Nat} (natural : d.natural? = some n) : d.interval.Holds n := by
  have unit : (0 : ℚ) < 2 ^ (d.exponent - 2) := zpow_pos (by norm_num) _
  have quarters : (n : ℚ) = (4 * d.mantissa : Nat) * 2 ^ (d.exponent - 2) := by
    rw [naturalValue natural, zpow_sub₀ (by norm_num)]
    push_cast
    ring
  have below : 0 < d.quartersBelow := by
    have cases := quartersCases (d := d)
    omega
  rw [intervalHolds, quarters, withinScaled unit]
  -- zero is the lower end of its own interval
  refine ⟨?_, .inl (by exact_mod_cast Nat.lt_add_of_pos_right Nat.zero_lt_two)⟩
  rcases Nat.eq_zero_or_pos d.mantissa with zero | positive
  · exact .inr (by simp [zero])
  · exact .inl (by exact_mod_cast Nat.sub_lt (by omega) below)

theorem apartInPlace {d' : Dyadic} {q : ℚ} (place : d.exponent = d'.exponent) (less : d.mantissa < d'.mantissa)
    (holds : d.interval.Holds q) : ¬ d'.interval.Holds q := by
  intro holds'
  have unit : (0 : ℚ) < 2 ^ (d.exponent - 2) := zpow_pos (by norm_num) _
  have few := quartersCases (d := d')
  rw [intervalHolds] at holds holds'
  rw [← place] at holds'
  have order : 4 * d.mantissa + 2 ≤ 4 * d'.mantissa - d'.quartersBelow := by omega
  obtain ⟨meet, even, even'⟩ := withinMeets (mul_le_mul_of_nonneg_right (Nat.cast_le.mpr order) unit.le) holds holds'
  have same := Nat.cast_inj.mp (mul_right_cancel₀ unit.ne' meet)
  simp only [decide_eq_true_eq] at even even'
  omega

theorem apartAcrossPlaces {d' : Dyadic} {q : ℚ} (canonical : d.Canonical) (canonical' : d'.Canonical)
    (less : d.exponent < d'.exponent) (holds : d.interval.Holds q) : ¬ d'.interval.Holds q := by
  intro holds'
  obtain ⟨small, least, _⟩ := canonical
  obtain ⟨_, _, full⟩ := canonical'
  have unit : (0 : ℚ) < 2 ^ (d.exponent - 2) := zpow_pos (by norm_num) _
  obtain ⟨k, places⟩ : ∃ k : Nat, d'.exponent - 2 = (k + 1 : Nat) + (d.exponent - 2) :=
    ⟨(d'.exponent - d.exponent - 1).toNat, by omega⟩
  have first : 2 ^ 54 - 1 ≤ 4 * d'.mantissa - d'.quartersBelow := by
    unfold quartersBelow
    split <;> omega
  have low : (2 ^ 54 - 1) * 2 ≤ (4 * d'.mantissa - d'.quartersBelow) * 2 ^ (k + 1) :=
    Nat.mul_le_mul first (Nat.le_self_pow (Nat.succ_ne_zero k) 2)
  rw [intervalHolds] at holds holds'
  rw [places, zpow_add₀ (by norm_num), zpow_natCast, ← mul_assoc, ← mul_assoc] at holds'
  have order : 4 * d.mantissa + 2 ≤ (4 * d'.mantissa - d'.quartersBelow) * 2 ^ (k + 1) := by omega
  obtain ⟨meet, even, _⟩ := withinMeets
    (mul_le_mul_of_nonneg_right (by exact_mod_cast order) unit.le) holds holds'
  have same : 4 * d.mantissa + 2 = (4 * d'.mantissa - d'.quartersBelow) * 2 ^ (k + 1) := by
    exact_mod_cast mul_right_cancel₀ unit.ne' meet
  simp only [decide_eq_true_eq] at even
  omega

theorem holdsUnique {d' : Dyadic} {q : ℚ} (canonical : d.Canonical) (canonical' : d'.Canonical)
    (holds : d.interval.Holds q) (holds' : d'.interval.Holds q) : d = d' := by
  rcases lt_trichotomy d.exponent d'.exponent with less | place | greater
  · exact absurd holds' (apartAcrossPlaces canonical canonical' less holds)
  · rcases lt_trichotomy d.mantissa d'.mantissa with less | same | greater
    · exact absurd holds' (apartInPlace place less holds)
    · obtain ⟨m, e⟩ := d
      obtain ⟨m', e'⟩ := d'
      cases same
      cases place
      rfl
    · exact absurd holds (apartInPlace place.symm greater holds')
  · exact absurd holds (apartAcrossPlaces canonical' canonical greater holds')

end Rounding
end Dyadic

theorem finiteCases {bits : Nat} {d : Dyadic} (finite : Magnitude.ofBits bits = .finite d) :
    (bits / 2 ^ 52 % 2048 = 0 ∧ d = ⟨bits % 2 ^ 52, -1074⟩) ∨
      (0 < bits / 2 ^ 52 % 2048 ∧ d = ⟨2 ^ 52 + bits % 2 ^ 52, (bits / 2 ^ 52 % 2048 : Nat) - 1075⟩) := by
  simp only [Magnitude.ofBits, Nat.one_shiftLeft, Nat.shiftRight_eq_div_pow] at finite
  split at finite
  · split at finite <;> cases finite
  split at finite
  · rename_i subnormal
    exact .inl ⟨subnormal, (Magnitude.finite.inj finite).symm⟩
  · rename_i normal
    exact .inr ⟨Nat.pos_of_ne_zero normal, (Magnitude.finite.inj finite).symm⟩

theorem finiteCanonical {bits : Nat} {d : Dyadic} (finite : Magnitude.ofBits bits = .finite d) : d.Canonical := by
  have fraction := Nat.mod_lt bits (show 0 < 2 ^ 52 by decide)
  rcases finiteCases finite with ⟨_, rfl⟩ | ⟨_, rfl⟩ <;> refine ⟨?_, ?_, ?_⟩ <;> dsimp only <;> omega

theorem finiteUnique {bits bits' : Nat} {d : Dyadic} (positive : bits < 2 ^ 63) (positive' : bits' < 2 ^ 63)
    (finite : Magnitude.ofBits bits = .finite d) (finite' : Magnitude.ofBits bits' = .finite d) : bits = bits' := by
  rcases finiteCases finite with ⟨_, rfl⟩ | ⟨_, rfl⟩ <;> rcases finiteCases finite' with ⟨_, same⟩ | ⟨_, same⟩ <;>
    simp only [Dyadic.mk.injEq] at same <;> omega

namespace Number

def Counted (x : Float) : Prop := isNegative x = false ∧ ∃ d, magnitude x = .finite d

theorem wholeText (n : Nat) : Numeral (Nat.repr n ++ ".0").toList ∧ decimalValue (Nat.repr n ++ ".0").toList = n := by
  have digits := Digits.toDigitsDigits n
  have parts : (Nat.repr n ++ ".0").toList = Nat.toDigits 10 n ++ '.' :: ['0'] := by
    rw [String.toList_append, Nat.toList_repr]
    rfl
  rw [parts]
  constructor
  · obtain ⟨c, rest, shape⟩ := List.exists_cons_of_ne_nil (Nat.toDigits_ne_nil (b := 10) (n := n))
    refine ⟨⟨c, _, by rw [shape, List.cons_append], digits c (by simp [shape])⟩, fun c member => ?_⟩
    rcases List.mem_append.mp member with front | back
    · exact .inl (digits c front)
    · simp only [List.mem_cons, List.not_mem_nil, or_false] at back
      rcases back with rfl | rfl
      · exact .inr rfl
      · exact .inl Digits.zeroDigit
  · rw [decimalPointed digits, digitsValueAppend, Digits.toDigitsValue]
    simp [digitsValue]

theorem finiteTextRead {d : Dyadic} (canonical : d.Canonical) :
    Numeral (finiteText .tree d).toList ∧ d.interval.Holds (decimalValue (finiteText .tree d).toList) := by
  unfold finiteText
  split
  · rename_i n natural
    obtain ⟨shape, value⟩ := wholeText n
    rw [if_pos (show Style.tree.admits n = true from rfl)]
    exact ⟨shape, value ▸ Dyadic.naturalHolds natural⟩
  · rename_i part
    have some : 0 < d.mantissa := by
      refine Nat.pos_of_ne_zero fun zero => ?_
      simp [Dyadic.natural?, zero] at part
    obtain ⟨n, s, found, holds⟩ := Dyadic.shortestHolds canonical some .up
    have proper := Digits.ofScaledProper n s
    rw [found]
    refine ⟨Digits.positionalNumeral proper, ?_⟩
    rwa [Digits.positionalValue proper, Digits.ofScaledValue]

theorem countedBits {x : Float} (counted : Counted x) : x.toBits.toNat < 2 ^ 63 := by
  have sign := counted.1
  have size := x.toBits.toNat_lt
  simp only [isNegative, beq_eq_false_iff_ne, Nat.shiftRight_eq_div_pow] at sign
  omega

theorem floatExt {x y : Float} (same : x.toBits = y.toBits) : x = y := by
  obtain ⟨bits, valid⟩ := x
  obtain ⟨bits', valid'⟩ := y
  cases same
  rfl

theorem countedText {x : Float} (counted : Counted x) : ∃ d, magnitude x = .finite d ∧ d.Canonical ∧
    text .tree x = finiteText .tree d := by
  obtain ⟨positive, d, finite⟩ := counted
  refine ⟨d, finite, finiteCanonical finite, ?_⟩
  simp [text, positive, finite]

theorem countedNumeral {x : Float} (counted : Counted x) : Numeral (text .tree x).toList := by
  obtain ⟨d, _, canonical, same⟩ := countedText counted
  exact same ▸ (finiteTextRead canonical).1

theorem countedUnique {x y : Float} (counted : Counted x) (counted' : Counted y)
    (same : text .tree x = text .tree y) : x = y := by
  obtain ⟨d, finite, canonical, shown⟩ := countedText counted
  obtain ⟨d', finite', canonical', shown'⟩ := countedText counted'
  have holds := (finiteTextRead canonical).2
  rw [← shown, same, shown'] at holds
  cases Dyadic.holdsUnique canonical canonical' holds (finiteTextRead canonical').2
  have bits := finiteUnique (countedBits counted) (countedBits counted') finite finite'
  exact floatExt (UInt64.toNat_inj.mp bits)

end Number
end Treewalk
