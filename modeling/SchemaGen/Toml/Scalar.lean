import SchemaGen.Numeric.Literal
import SchemaGen.Text.Split
import SchemaGen.Toml.Value

namespace SchemaGen.Toml

def isDigit (c : Char) : Bool := '0' ≤ c && c ≤ '9'

def isHexDigit (c : Char) : Bool :=
  isDigit c || ('a' ≤ c && c ≤ 'f') || ('A' ≤ c && c ≤ 'F')

/-- A sign, if there is one, and the rest. -/
def splitSign : List Char → Option Char × List Char
  | '+' :: rest => (some '+', rest)
  | '-' :: rest => (some '-', rest)
  | cs => (none, cs)

/-- Groups after the first: each starts with a digit, and each but the last, if it is longer, ends
with one. -/
def areGroups (test : Char → Bool) : List (List Char) → Bool
  | [] => true
  | [group] => !group.isEmpty && group.head?.all test
  | group :: rest =>
    group.head?.any test && (group.length ≤ 1 || group.getLast?.all test) && areGroups test rest

/-- Underscores stand between digits. A first group of a single character is not looked at, so an
underscore may follow a sign. -/
def isGrouped (test : Char → Bool) (cs : List Char) : Bool :=
  match Text.splitOn '_' cs with
  | first :: second :: rest =>
    !first.isEmpty && (first.length ≤ 1 || first.getLast?.all test) &&
      areGroups test (second :: rest)
  | _ => true

def withoutUnderscores (cs : List Char) : List Char := cs.filter (· ≠ '_')

/-- The naturals that 128 bits hold, without a sign and with one. -/
def unsignedLimit : Nat := Numeric.twoPow 128

def signedLimit : Nat := Numeric.twoPow 127

/-- A whole number of a radix. Its digits are looked at only here, so a word in their place is a
number out of range. -/
def wholeInRange (radix : Nat) (negative : Bool) (digits : List Char) : Bool :=
  let value := Numeric.ofDigits radix digits
  !digits.isEmpty && digits.all (Numeric.hasDigit radix) &&
    (if negative then value ≤ signedLimit else value < unsignedLimit)

/-- Digits of a radix after its mark. -/
def radixed? (radix : Nat) (digits : List Char) : Option Value :=
  if (withoutUnderscores digits).all (Numeric.hasDigit radix) && isGrouped isHexDigit digits &&
      digits.head? != some '_' then
    some (.number (wholeInRange radix false (withoutUnderscores digits)))
  else none

/-- A decimal whole number, which has no leading zero. -/
def whole? (word : List Char) : Option Value :=
  let (sign, body) := splitSign word
  if (body.head? == some '0' && body.length != 1) || !isGrouped isHexDigit word then none
  else some (.number (wholeInRange 10 (sign == some '-') (withoutUnderscores body)))

/-- Digits with underscores among them, and the rest. -/
def takeDigits (cs : List Char) : List Char × List Char :=
  let digits := cs.takeWhile fun c => isDigit c || c == '_'
  (withoutUnderscores digits, cs.drop digits.length)

/-- Digits of a float's part, at least one. -/
def part? (cs : List Char) : Option (List Char) :=
  let (digits, rest) := takeDigits cs
  if digits.isEmpty then none else some rest

def fractionPart? : List Char → Option (List Char)
  | '.' :: rest => part? rest
  | cs => some cs

def exponentPart? : List Char → Option (List Char)
  | 'e' :: rest | 'E' :: rest => part? (splitSign rest).2
  | cs => some cs

/-- A whole part without a leading zero, then a fraction, an exponent or both. -/
def isFloat (body : List Char) : Bool :=
  let (digits, rest) := takeDigits body
  !digits.isEmpty && (body.head? != some '0' || digits.length == 1) &&
    ((fractionPart? rest).bind exponentPart?) == some []

/-- A float is in range unless it rounds to infinity. -/
def floatInRange (body : List Char) : Bool :=
  match Numeric.readDecimal (withoutUnderscores body) with
  | some d => (d.toBinary64 false).isFinite
  | none => false

def float? (word : List Char) : Option Value :=
  let body := (splitSign word).2
  if isFloat body && isGrouped isDigit word then some (.number (floatInRange body)) else none

/-- Two digits with a value in a range. -/
def isPair (low high : Nat) (a b : Char) : Bool :=
  let n := Numeric.ofDigits 10 [a, b]
  isDigit a && isDigit b && low ≤ n && n ≤ high

def daysIn (year month : Nat) : Nat :=
  if month = 2 then
    if year % 4 = 0 ∧ (year % 100 ≠ 0 ∨ year % 400 = 0) then 29 else 28
  else if month ∈ [4, 6, 9, 11] then 30 else 31

/-- A date and what follows it. -/
def date? : List Char → Option (List Char)
  | a :: b :: c :: d :: '-' :: e :: f :: '-' :: g :: h :: rest =>
    let year := [a, b, c, d]
    if year.all isDigit && isPair 1 12 e f &&
        isPair 1 (daysIn (Numeric.ofDigits 10 year) (Numeric.ofDigits 10 [e, f])) g h then
      some rest
    else none
  | _ => none

/-- Seconds, which may be left out, with an optional fraction. -/
def seconds? : List Char → Option (List Char)
  | ':' :: a :: b :: '.' :: rest =>
    if isPair 0 60 a b && (rest.head?.any isDigit) then some (rest.dropWhile isDigit) else none
  | ':' :: a :: b :: rest => if isPair 0 60 a b then some rest else none
  | rest => some rest

/-- A time and what follows it. -/
def time? : List Char → Option (List Char)
  | a :: b :: ':' :: c :: d :: rest =>
    if isPair 0 23 a b && isPair 0 59 c d then seconds? rest else none
  | _ => none

def isOffset : List Char → Bool
  | [] | ['Z'] | ['z'] => true
  | [s, a, b, ':', c, d] => (s == '+' || s == '-') && isPair 0 23 a b && isPair 0 59 c d
  | _ => false

def isDateTime (cs : List Char) : Bool :=
  match date? cs with
  | some [] => true
  | some (mark :: rest) => (mark == 'T' || mark == 't' || mark == ' ') && (time? rest).any isOffset
  | none => time? cs == some []

/-- A word that starts like a number. What follows the first digits tells its kind. -/
def number? (word : List Char) : Option Value :=
  let (sign, body) := splitSign word
  let rest := body.dropWhile isDigit
  match sign, body, rest with
  | none, '0' :: 'x' :: digits, _ => radixed? 16 digits
  | none, '0' :: 'o' :: digits, _ => radixed? 8 digits
  | none, '0' :: 'b' :: digits, _ => radixed? 2 digits
  | _, [], _ => none
  | _, _, [] => whole? word
  | _, _, c :: _ =>
    if c == '-' || c == ':' then (if isDateTime word then some .moment else none)
    else if rest.contains ' ' then none
    else if rest.any fun c => c == '.' || c == 'e' || c == 'E' then float? word
    else if c == '_' then whole? word
    else none

/-- The value of a bare word. -/
def wordValue? (word : List Char) : Option Value :=
  if word = "true".toList then some (.truth true)
  else if word = "false".toList then some (.truth false)
  else
    let body := (splitSign word).2
    if body = "inf".toList || body = "nan".toList then some (.number true)
    else number? word

end SchemaGen.Toml
