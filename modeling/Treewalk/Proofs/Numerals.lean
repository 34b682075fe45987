import Mathlib.Algebra.Field.Rat
import Mathlib.Tactic.NormNum
import Treewalk.Proofs.Words

/-! Positional digits as text. The text starts with a digit, holds nothing but digits and at most one point, and read
as a decimal it is the number that the digits stand for. -/
namespace Treewalk

def Numeral (cs : List Char) : Prop := (∃ c rest, cs = c :: rest ∧ Digit c) ∧ ∀ c ∈ cs, Digit c ∨ c = '.'

namespace Number

theorem digitsValueChars (cs : List Char) : digitsValue cs = Nat.ofDigitChars 10 cs 0 :=
  Nat.ofDigitChars_eq_foldl.symm

theorem digitsValueAppend (front back : List Char) :
    digitsValue (front ++ back) = digitsValue front * 10 ^ back.length + digitsValue back := by
  rw [digitsValueChars, Nat.ofDigitChars_append, Nat.ofDigitChars_eq_ofDigitChars_zero, ← digitsValueChars,
    ← digitsValueChars, Nat.mul_comm]

theorem digitsValueZeros (n : Nat) : digitsValue (Digits.zeros n) = 0 := by
  rw [digitsValueChars, Digits.zeros, Nat.ofDigitChars_replicate_zero, Nat.mul_zero]

def decimalValue (cs : List Char) : ℚ :=
  let fraction := (cs.dropWhile (· != '.')).tail
  digitsValue (cs.takeWhile (· != '.') ++ fraction) / 10 ^ fraction.length

section Decimals
variable {whole : List Char} (pointless : ∀ c ∈ whole, Digit c)
include pointless

theorem digitsNotPoint : ∀ c ∈ whole, (c != '.') = true := by
  intro c member
  rw [bne_iff_ne]
  rintro rfl
  exact absurd (pointless '.' member).1 (by decide)

theorem decimalWhole : decimalValue whole = digitsValue whole := by
  have free := digitsNotPoint pointless
  simp [decimalValue, List.takeWhile_eq_self_iff.mpr free, List.dropWhile_eq_nil_iff.mpr free]

theorem decimalPointed (fraction : List Char) :
    decimalValue (whole ++ '.' :: fraction) = digitsValue (whole ++ fraction) / 10 ^ fraction.length := by
  have free := digitsNotPoint pointless
  simp [decimalValue, List.takeWhile_append_of_pos free, List.dropWhile_append_of_pos free]

end Decimals
end Number

namespace Digits
open Number

def Proper (d : Digits) : Prop := ∀ c ∈ d.digits, Digit c

def value (d : Digits) : ℚ := digitsValue d.digits * 10 ^ (d.point - d.digits.length)

theorem zeroDigit : Digit '0' := by
  constructor <;> decide

theorem zerosDigits {n : Nat} : ∀ c ∈ zeros n, Digit c :=
  fun _ member => List.eq_of_mem_replicate member ▸ zeroDigit

theorem toDigitsDigits (n : Nat) : ∀ c ∈ Nat.toDigits 10 n, Digit c :=
  fun _ member => digitExact.mp (Nat.isDigit_of_mem_toDigits (by decide) (by decide) member)

theorem toDigitsValue (n : Nat) : digitsValue (Nat.toDigits 10 n) = n := by
  rw [digitsValueChars, Nat.ofDigitChars_ten_toDigits]

theorem trailingZeros (cs : List Char) :
    ∃ k, cs = (cs.reverse.dropWhile (· == '0')).reverse ++ zeros k := by
  have zero : cs.reverse.takeWhile (· == '0') = zeros (cs.reverse.takeWhile (· == '0')).length := by
    refine List.eq_replicate_iff.mpr ⟨rfl, fun c member => ?_⟩
    simpa using List.mem_takeWhile_imp member
  have cut := congrArg List.reverse (List.takeWhile_append_dropWhile (p := (· == '0')) (l := cs.reverse))
  rw [List.reverse_append, List.reverse_reverse, zero, zeros, List.reverse_replicate] at cut
  exact ⟨_, cut.symm⟩

theorem ofScaledProper (n : Nat) (scale : Int) : (ofScaled n scale).Proper := by
  intro c member
  have inner := (List.dropWhile_sublist _).subset (List.mem_reverse.mp member)
  exact toDigitsDigits n c (List.mem_reverse.mp inner)

theorem ofScaledValue (n : Nat) (scale : Int) : (ofScaled n scale).value = n * 10 ^ scale := by
  obtain ⟨k, cut⟩ : ∃ k, Nat.toDigits 10 n = (ofScaled n scale).digits ++ zeros k := trailingZeros _
  have place : (ofScaled n scale).point = (Nat.toDigits 10 n).length + scale := rfl
  have whole := toDigitsValue n
  generalize ofScaled n scale = d at cut place
  rw [cut, digitsValueAppend, digitsValueZeros, zeros, List.length_replicate, Nat.add_zero] at whole
  rw [cut, List.length_append, zeros, List.length_replicate] at place
  have point : d.point - d.digits.length = k + scale := by omega
  rw [value, point, zpow_add₀ (by norm_num), ← mul_assoc, zpow_natCast, ← whole]
  push_cast
  rfl

section Positional
variable {d : Digits} (proper : d.Proper)
include proper

theorem positionalNumeral : Numeral d.positional.toList := by
  unfold positional
  rw [String.toList_ofList]
  split
  · refine ⟨⟨'0', _, rfl, zeroDigit⟩, ?_⟩
    simp only [List.cons_append, List.mem_cons, List.mem_append]
    rintro c (rfl | rfl | member | member)
    · exact .inl zeroDigit
    · exact .inr rfl
    · exact .inl (zerosDigits c member)
    · exact .inl (proper c member)
  · rename_i positive
    have digits : ∀ cs : List Char, cs ≠ [] → (∀ c ∈ cs, Digit c) → ∃ c rest, cs = c :: rest ∧ Digit c := by
      intro cs some all
      obtain ⟨c, rest, rfl⟩ := List.exists_cons_of_ne_nil some
      exact ⟨c, rest, rfl, all c List.mem_cons_self⟩
    split
    · rename_i short
      have all : ∀ c ∈ d.digits ++ zeros (d.point - d.digits.length).toNat, Digit c :=
        fun c member => (List.mem_append.mp member).elim (proper c) (zerosDigits c)
      refine ⟨digits _ ?_ all, fun c member => .inl (all c member)⟩
      rw [← List.length_pos_iff, List.length_append, zeros, List.length_replicate]
      omega
    · rename_i long
      obtain ⟨c, rest, front, digit⟩ := digits (d.digits.take d.point.toNat)
        (by rw [← List.length_pos_iff, List.length_take]; omega)
        (fun c member => proper c (List.mem_of_mem_take member))
      refine ⟨⟨c, _, by rw [front, List.cons_append], digit⟩, fun c member => ?_⟩
      rcases List.mem_append.mp member with front | back
      · exact .inl (proper c (List.mem_of_mem_take front))
      · rcases List.mem_cons.mp back with rfl | back
        · exact .inr rfl
        · exact .inl (proper c (List.mem_of_mem_drop back))

theorem positionalValue : decimalValue d.positional.toList = d.value := by
  unfold positional value
  rw [String.toList_ofList]
  split
  · rename_i small
    have zero : ∀ c ∈ ['0'], Digit c := List.forall_mem_singleton.mpr zeroDigit
    have split := decimalPointed zero (zeros (-d.point).toNat ++ d.digits)
    have scale : (d.point - d.digits.length : Int) = -((-d.point).toNat + d.digits.length : Nat) := by omega
    rw [List.singleton_append, ← List.cons_append, ← List.append_assoc, digitsValueAppend,
      show ['0'] ++ zeros (-d.point).toNat = zeros ((-d.point).toNat + 1) from rfl, digitsValueZeros, Nat.zero_mul,
      Nat.zero_add, List.length_append, zeros, List.length_replicate] at split
    rw [scale, zpow_neg, zpow_natCast, ← div_eq_mul_inv]
    exact split
  · rename_i positive
    split
    · rename_i short
      have all : ∀ c ∈ d.digits ++ zeros (d.point - d.digits.length).toNat, Digit c :=
        fun c member => (List.mem_append.mp member).elim (proper c) (zerosDigits c)
      have scale : (d.point - d.digits.length : Int) = ((d.point - d.digits.length).toNat : Nat) := by omega
      rw [decimalWhole all, digitsValueAppend, digitsValueZeros, zeros, List.length_replicate, Nat.add_zero, scale,
        zpow_natCast]
      push_cast
      rfl
    · rename_i long
      have front : ∀ c ∈ d.digits.take d.point.toNat, Digit c := fun c member => proper c (List.mem_of_mem_take member)
      have scale : (d.point - d.digits.length : Int) = -((d.digits.drop d.point.toNat).length : Nat) := by
        rw [List.length_drop]
        omega
      rw [decimalPointed front, List.take_append_drop, scale, zpow_neg, zpow_natCast, ← div_eq_mul_inv]

end Positional
end Digits
end Treewalk
