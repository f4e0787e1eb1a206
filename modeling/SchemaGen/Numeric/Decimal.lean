import SchemaGen.Numeric.Binary64

namespace SchemaGen.Numeric

/-- The digits of a number in base ten, most significant first; zero has the digit 0. -/
def decimalDigits (n : Nat) : List Char := Nat.toDigits 10 n

/-- The number of decimal digits; zero has none. -/
def digitCount (n : Nat) : Nat := if n = 0 then 0 else (decimalDigits n).length

/-- The value of a digit, in any radix up to sixteen. -/
def digitValue (c : Char) : Nat :=
  if '0' ≤ c ∧ c ≤ '9' then c.toNat - '0'.toNat
  else if 'a' ≤ c ∧ c ≤ 'f' then c.toNat - 'a'.toNat + 10
  else c.toNat - 'A'.toNat + 10

/-- The number that digits of a radix denote. -/
def ofDigits (radix : Nat) (digits : List Char) : Nat :=
  digits.foldl (fun n c => n * radix + digitValue c) 0

/-- `digits * 10 ^ exponent` -/
structure Decimal where
  digits : Nat
  exponent : Int
  deriving DecidableEq, Repr

namespace Decimal

def num (d : Decimal) : Nat := d.digits * tenPow d.exponent.toNat

def den (d : Decimal) : Nat := tenPow (-d.exponent).toNat

/-- The index of the nearest magnitude. Decimals from 10^400 up are infinite and decimals below
10^-400 are zero whatever their digits, so no power past these bounds is computed. -/
def nearestIndex (d : Decimal) : Nat :=
  let scale : Int := digitCount d.digits + d.exponent
  if d.digits = 0 ∨ scale < -400 then 0
  else if 400 < scale then finiteCount
  else Numeric.nearestIndex d.num d.den

def toBinary64 (negative : Bool) (d : Decimal) : Binary64 :=
  Binary64.ofIndex negative d.nearestIndex

/-- Trailing zeros of the digits moved into the exponent. -/
def strip (d : Decimal) : Decimal := go d.digits d.exponent (digitCount d.digits)
where
  go (digits : Nat) (exponent : Int) : Nat → Decimal
    | 0 => ⟨digits, exponent⟩
    | n + 1 => if digits % 10 = 0 then go (digits / 10) (exponent + 1) n else ⟨digits, exponent⟩

/-- The exponent of the leading digit. -/
def leading (d : Decimal) : Int := digitCount d.digits + d.exponent - 1

end Decimal

/-- Which of two equally near decimals is printed. -/
inductive Tie where
  | up
  | even
  deriving DecidableEq, Repr

/-- The least `k` with the value of a magnitude below 10^k. No positive value is below 10^-324. -/
def magnitudeScale (magnitude : Nat) : Int :=
  digitCount (units magnitude * tenPow 324 / unitsPerOne) - 324

/-- The decimal with `count` digits nearest below the value, or next above it, that reads back. -/
def candidate? (tie : Tie) (magnitude count : Nat) : Option Decimal :=
  let exponent := magnitudeScale magnitude - count
  let num := units magnitude * tenPow (-exponent).toNat
  let den := unitsPerOne * tenPow exponent.toNat
  let below : Decimal := ⟨num / den, exponent⟩
  let above : Decimal := ⟨num / den + 1, exponent⟩
  let rest := 2 * (num % den)
  match below.nearestIndex == magnitude, above.nearestIndex == magnitude with
  | false, false => none
  | true, false => some below
  | false, true => some above
  | true, true =>
    if rest < den then some below
    else if den < rest then some above
    else if tie == .even && below.digits % 2 == 0 then some below
    else some above

/-- The exact value of a magnitude as a decimal: a unit is 5^1074 * 10^-1074. -/
def exactDecimal (magnitude : Nat) : Decimal := ⟨units magnitude * Nat.pow 5 1074, -1074⟩

/-- The shortest decimal that reads back as a nonzero magnitude; seventeen digits are enough. -/
def shortest (tie : Tie) (magnitude : Nat) : Decimal :=
  (((List.range 17).findSome? fun n => candidate? tie magnitude (n + 1)).getD
    (exactDecimal magnitude)).strip

end SchemaGen.Numeric
