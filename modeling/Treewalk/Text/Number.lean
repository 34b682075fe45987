import Treewalk.Text.Decimal

/-! Numbers of the language as text: what `print` shows, what a token listing and a tree show, and
what the JSON form of a tree holds; and the reading of number literals. -/
namespace Treewalk.Number

def magnitude (x : Float) : Magnitude := .ofBits x.toBits.toNat

def isNegative (x : Float) : Bool := x.toBits.toNat >>> 63 == 1

/-- How whole numbers are written: those below `wholeBelow`, if there is such a bound, digit by digit and
followed by `wholeEnding`. All other numbers take their shortest digits. -/
structure Style where
  wholeEnding : String
  wholeBelow : Option Nat
  deriving DecidableEq, Repr

def Style.value : Style := ⟨"", some 1000000000000000⟩

def Style.token : Style := ⟨".0", some 1000000000000000⟩

def Style.tree : Style := ⟨".0", none⟩

def Style.admits (s : Style) (n : Nat) : Bool :=
  match s.wholeBelow with
  | some bound => n < bound
  | none => true

def finiteText (s : Style) (d : Dyadic) : String :=
  match d.natural? with
  | some n =>
    if s.admits n then Nat.repr n ++ s.wholeEnding else (d.shortest .up).positional
  | none => (d.shortest .up).positional

def text (s : Style) (x : Float) : String :=
  let sign := if isNegative x then "-" else ""
  match magnitude x with
  | .nan => "NaN"
  | .infinite => sign ++ "inf"
  | .finite d => sign ++ finiteText s d

/-- Digits in the layout of a JSON number: always a point or an exponent, the exponent only outside
`10 ^ -5` to `10 ^ 16`. -/
def jsonDigits (d : Digits) : String :=
  if 0 < d.point ∧ d.point ≤ 16 then
    if d.digits.length ≤ d.point then d.positional ++ ".0" else d.positional
  else if -5 < d.point ∧ d.point ≤ 0 then d.positional
  else d.scientific

def jsonText? (x : Float) : Option String :=
  let sign := if isNegative x then "-" else ""
  match magnitude x with
  | .finite d =>
    some (sign ++ if d.mantissa = 0 then "0.0" else jsonDigits (d.shortest .toEven))
  | _ => none

def digitsValue (cs : List Char) : Nat :=
  cs.foldl (fun n c => 10 * n + (c.toNat - '0'.toNat)) 0

def ofDigits (whole fraction : List Char) : Float :=
  Float.ofScientific (digitsValue (whole ++ fraction)) true fraction.length

end Treewalk.Number
