import SchemaGen.Numeric.Literal

namespace SchemaGen.Json

open Numeric

/-- The significand is held in 64 bits. -/
def significandLimit : Nat := twoPow 64

/-- A significand with the next digit, if it still fits. -/
def extend? (significand : Nat) (c : Char) : Option Nat :=
  let next := significand * 10 + digitValue c
  if next < significandLimit then some next else none

/-- Digits taken into a significand up to the first that does not fit, and the digits from there. -/
def takeDigits (significand : Nat) : List Char → Nat × List Char
  | [] => (significand, [])
  | c :: rest =>
    match extend? significand c with
    | some next => takeDigits next rest
    | none => (significand, c :: rest)

/-- A value times a power of ten, in steps that a binary64 power covers. Too large a product is
no number; a quotient may become zero. -/
def scaleUpTo : Nat → Binary64 → Int → Option Binary64
  | 0, _, _ => none
  | bound + 1, x, e =>
    if 0 ≤ e then
      if 308 < e then (if x.equal .zero then some x else none)
      else
        let product := x.mul (.ofNat (tenPow e.toNat))
        if product.isFinite then some product else none
    else if -308 ≤ e then some (x.div (.ofNat (tenPow (-e).toNat)))
    else if x.equal .zero then some x
    else scaleUpTo bound (x.div (.ofNat (tenPow 308))) (e + 308)

/-- Three steps turn any 64-bit significand into zero. -/
def scale (significand : Nat) (e : Int) : Option Binary64 :=
  scaleUpTo 4 (.ofNat significand) e

/-- The largest exponent that is taken as it stands. -/
def exponentLimit : Nat := twoPow 31

/-- The parts of a number as they are written, without their marks. -/
structure NumberText where
  negative : Bool
  whole : List Char
  fraction : Option (List Char)
  exponent : Option (Bool × List Char)

/-- The value of a number, if it is in range. An exponent that is too long gives zero, or nothing
where the number would be large. -/
def NumberText.value? (n : NumberText) : Option Binary64 :=
  let (head, dropped) := takeDigits 0 n.whole
  let (significand, used) :=
    let fraction := n.fraction.getD []
    let (s, rest) := takeDigits head fraction
    (s, fraction.length - rest.length)
  let shift : Int := (dropped.length : Int) - used
  let magnitude := match n.exponent with
    | none => scale significand shift
    | some (down, digits) =>
      let e := ofDigits 10 digits
      if e < exponentLimit then scale significand (if down then shift - e else shift + e)
      else if significand ≠ 0 && !down then none
      else some .zero
  magnitude.map fun x => if n.negative then x.neg else x

/-- The natural that a number is written as, if 64 bits hold it. -/
def NumberText.natural? (n : NumberText) : Option Nat :=
  let value := ofDigits 10 n.whole
  if n.negative || n.fraction.isSome || n.exponent.isSome || significandLimit ≤ value then none
  else some value

/-- Exponents that are written out. -/
def isPositional (e : Int) : Bool := -5 ≤ e && e ≤ 15

/-- The text of a finite magnitude, always with a fraction or an exponent. -/
def magnitudeText (magnitude : Nat) : List Char :=
  if magnitude = 0 then "0.0".toList
  else
    let d := shortest .even magnitude
    if isPositional d.leading then
      if 0 ≤ d.exponent then d.positional ++ ".0".toList else d.positional
    else d.mantissa ++ 'e' :: d.signedExponent

/-- The text of a number; what is not finite has none. -/
def numberText : Binary64 → String
  | .finite negative m =>
    String.ofList (if negative then '-' :: magnitudeText m else magnitudeText m)
  | _ => "null"

end SchemaGen.Json
