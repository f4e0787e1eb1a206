import SchemaGen.Numeric.Decimal
import SchemaGen.Text.Blank
import SchemaGen.Text.Split

namespace SchemaGen.Numeric

def isDigit (c : Char) : Bool := '0' ≤ c && c ≤ '9'

/-- A sign, if there is one; true for a minus. -/
def takeSign : List Char → Bool × List Char
  | '-' :: rest => (true, rest)
  | '+' :: rest => (false, rest)
  | cs => (false, cs)

/-- An exponent with its mark, filling the text; no text is the exponent zero. -/
def readExponent : List Char → Option Int
  | [] => some 0
  | c :: rest =>
    let (negative, digits) := takeSign rest
    if (c == 'e' || c == 'E') && !digits.isEmpty && digits.all isDigit then
      some (if negative then -(ofDigits 10 digits : Int) else ofDigits 10 digits)
    else none

/-- Digits with an optional point and an optional exponent; a digit stands before or after the
point. -/
def readDecimal (cs : List Char) : Option Decimal :=
  let whole := cs.takeWhile isDigit
  let rest := cs.dropWhile isDigit
  let (fraction, rest) := match rest with
    | '.' :: rest => (rest.takeWhile isDigit, rest.dropWhile isDigit)
    | rest => ([], rest)
  if whole.isEmpty && fraction.isEmpty then none
  else (readExponent rest).map fun e => ⟨ofDigits 10 (whole ++ fraction), e - fraction.length⟩

def hasDigit (radix : Nat) (c : Char) : Bool :=
  (isDigit c || ('a' ≤ c && c ≤ 'f') || ('A' ≤ c && c ≤ 'F')) && digitValue c < radix

/-- A whole number of a radix, with a sign or without, if 64 bits hold it. -/
def readInteger? (radix : Nat) (cs : List Char) : Option Int :=
  let (negative, digits) := takeSign cs
  if !digits.isEmpty && digits.all (hasDigit radix) then
    let value : Int := if negative then -(ofDigits radix digits : Int) else ofDigits radix digits
    if -(twoPow 63 : Int) ≤ value ∧ value < twoPow 63 then some value else none
  else none

/-- Digits of a radix, accumulated with a rounding at each step. -/
def readRadix (radix : Nat) (digits : List Char) : Binary64 :=
  if !digits.isEmpty && digits.all (hasDigit radix) then
    digits.foldl (fun acc c => (acc.mul (.ofNat radix)).add (.ofNat (digitValue c))) .zero
  else .nan

/-- A letter other than the mark of an exponent. -/
def isOddLetter (c : Char) : Bool := c.isAlpha && c != 'e' && c != 'E'

/-- The general reader of floating-point numbers: with a sign or without, infinity or NaN by name,
in any case, or a decimal. -/
def readGeneral (cs : List Char) : Binary64 :=
  let (negative, body) := takeSign cs
  let name := body.map Char.toLower
  if name = "inf".toList ∨ name = "infinity".toList then .infinity negative
  else if name = "nan".toList then .nan
  else match readDecimal body with
    | some d => d.toBinary64 negative
    | none => .nan

/-- What is neither a word for infinity nor has other letters than marks of exponents comes to the
general reader. -/
def readFiltered (cs : List Char) : Binary64 :=
  if cs = "Infinity".toList ∨ cs = "+Infinity".toList then .infinity false
  else if cs = "-Infinity".toList then .infinity true
  else if cs.any isOddLetter then .nan
  else readGeneral cs

/-- The letters that mark a radix, after a zero. -/
def radixMarks : List (Char × Nat) :=
  [('x', 16), ('X', 16), ('o', 8), ('O', 8), ('b', 2), ('B', 2)]

/-- The number a text denotes. Blanks around it do not count, nothing is zero, and a text that is
no numeric literal is NaN. -/
def Binary64.ofText (text : String) : Binary64 :=
  let cs := Text.trim text.toList
  if cs = [] then .zero
  else
    let marked := radixMarks.findSome? fun (mark, radix) =>
      (Text.afterFront? ['0', mark] cs).map (readRadix radix)
    marked.getD (readFiltered cs)

namespace Decimal

/-- The digits with the point in its place, or zeros up to it. -/
def positional (d : Decimal) : List Char :=
  let digits := decimalDigits d.digits
  let point := d.leading + 1
  if point ≤ 0 then '0' :: '.' :: (List.replicate (-point).toNat '0' ++ digits)
  else if digits.length ≤ point.toNat then
    digits ++ List.replicate (point.toNat - digits.length) '0'
  else digits.take point.toNat ++ '.' :: digits.drop point.toNat

/-- The digits with a point after the first, if more follow. -/
def mantissa (d : Decimal) : List Char :=
  match decimalDigits d.digits with
  | [] => []
  | [c] => [c]
  | c :: rest => c :: '.' :: rest

/-- The exponent of the leading digit, always with a sign. -/
def signedExponent (d : Decimal) : List Char :=
  (if d.leading < 0 then '-' else '+') :: decimalDigits d.leading.natAbs

end Decimal

/-- Magnitudes from 10^-6 up to 10^21 are written without an exponent. -/
def isPositional (magnitude : Nat) : Bool :=
  nearestIndex 1 (tenPow 6) ≤ magnitude && magnitude < nearestIndex (tenPow 21) 1

/-- The text of a number; both zeros are `0`. -/
def Binary64.text : Binary64 → String
  | .nan => "NaN"
  | .infinity negative => if negative then "-Infinity" else "Infinity"
  | .finite negative m =>
    if m.val = 0 then "0"
    else
      let d := shortest .up m
      let body := if isPositional m then d.positional else d.mantissa ++ 'e' :: d.signedExponent
      String.ofList (if negative then '-' :: body else body)

end SchemaGen.Numeric
