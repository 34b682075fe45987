/-! Decimal digits of binary numbers, by exact arithmetic on `mantissa · 2 ^ exponent`.
`Dyadic.shortest` gives the fewest digits that still read back as the number. -/
namespace Treewalk

structure Dyadic where
  mantissa : Nat
  exponent : Int
  deriving DecidableEq, Repr

inductive Magnitude where
  | finite (value : Dyadic)
  | infinite
  | nan
  deriving DecidableEq, Repr

def Magnitude.ofBits (bits : Nat) : Magnitude :=
  let field : Nat := (bits >>> 52) % 2048
  let fraction : Nat := bits % (1 <<< 52)
  if field = 2047 then if fraction = 0 then .infinite else .nan
  else if field = 0 then .finite ⟨fraction, -1074⟩
  else .finite ⟨(1 <<< 52) + fraction, (field : Int) - 1075⟩

inductive Tie where
  | up
  | toEven
  deriving DecidableEq, Repr

/-- Digits, most significant first, with the place of the decimal point counted from their start. -/
structure Digits where
  digits : List Char
  point : Int
  deriving DecidableEq, Repr

namespace Digits

def ofScaled (n : Nat) (scale : Int) : Digits :=
  let all := Nat.toDigits 10 n
  ⟨(all.reverse.dropWhile (· == '0')).reverse, all.length + scale⟩

def zeros (n : Nat) : List Char := List.replicate n '0'

def positional (d : Digits) : String :=
  String.ofList <|
    if d.point ≤ 0 then '0' :: '.' :: zeros (-d.point).toNat ++ d.digits
    else if d.digits.length ≤ d.point then d.digits ++ zeros (d.point - d.digits.length).toNat
    else d.digits.take d.point.toNat ++ '.' :: d.digits.drop d.point.toNat

def scientific (d : Digits) : String :=
  let power := toString (d.point - 1)
  match d.digits with
  | [] => "0"
  | [c] => String.ofList [c] ++ "e" ++ power
  | c :: rest => String.ofList (c :: '.' :: rest) ++ "e" ++ power

end Digits

namespace Dyadic

def natural? (d : Dyadic) : Option Nat :=
  if 0 ≤ d.exponent then some (d.mantissa <<< d.exponent.toNat)
  else
    let unit := 1 <<< (-d.exponent).toNat
    if d.mantissa % unit = 0 then some (d.mantissa / unit) else none

/-- A number with the ends of the interval of reals that round to it, over one denominator. -/
structure Interval where
  low : Nat
  value : Nat
  high : Nat
  denominator : Nat
  closed : Bool
  deriving DecidableEq, Repr

/-- Neighbours lie half as far below a power of two as above it, except at the smallest exponent;
the ends of the interval belong to it when the mantissa is even. -/
def interval (d : Dyadic) : Interval :=
  let scale := d.exponent - 2
  let up := 1 <<< scale.toNat
  let below := if d.mantissa = 1 <<< 52 ∧ d.exponent ≠ -1074 then 1 else 2
  { low := (4 * d.mantissa - below) * up
    value := 4 * d.mantissa * up
    high := (4 * d.mantissa + 2) * up
    denominator := 1 <<< (-scale).toNat
    closed := d.mantissa % 2 = 0 }

namespace Interval

def rescale (i : Interval) (scale : Int) : Interval :=
  let up := Nat.pow 10 (-scale).toNat
  { i with
    low := i.low * up
    value := i.value * up
    high := i.high * up
    denominator := i.denominator * Nat.pow 10 scale.toNat }

def contains (i : Interval) (n : Nat) : Bool :=
  let x := n * i.denominator
  (i.low < x || i.closed && i.low == x) && (x < i.high || i.closed && x == i.high)

def nearest? (tie : Tie) (i : Interval) : Option Nat :=
  let floor := i.value / i.denominator
  let above := (floor + 1) * i.denominator - i.value
  let below := i.value - floor * i.denominator
  match i.contains floor, i.contains (floor + 1) with
  | false, false => none
  | true, false => some floor
  | false, true => some (floor + 1)
  | true, true =>
    if below < above then some floor
    else if above < below then some (floor + 1)
    else match tie with
      | .up => some (floor + 1)
      | .toEven => some (if floor % 2 = 0 then floor else floor + 1)

def leadingBelowOne (denominator : Nat) : Nat → Nat → Int
  | 0, _ => 0
  | steps + 1, value =>
    if denominator ≤ value then 0 else leadingBelowOne denominator steps (10 * value) - 1

def leading (i : Interval) : Int :=
  if i.denominator ≤ i.value then (Nat.toDigits 10 (i.value / i.denominator)).length - 1
  else leadingBelowOne i.denominator 400 i.value

end Interval

/-- Tries ever finer decimal grids; seventeen digits always suffice. -/
def search (tie : Tie) (i : Interval) : Nat → Int → Digits
  | 0, scale =>
    let fine := i.rescale scale
    .ofScaled (fine.value / fine.denominator) scale
  | more + 1, scale =>
    match (i.rescale scale).nearest? tie with
    | some n => .ofScaled n scale
    | none => search tie i more (scale - 1)

/-- The fewest digits that read back as the number; of those the nearest to it. -/
def shortest (tie : Tie) (d : Dyadic) : Digits :=
  let i := d.interval
  search tie i 17 i.leading

end Dyadic
end Treewalk
