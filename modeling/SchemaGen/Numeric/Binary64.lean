/-!
Binary64 floating-point values with exact rounding. A finite magnitude is its index among all
finite magnitudes in increasing order, which is also its bit pattern without the sign. Its value
is a whole number of units of 2^-1074, so every operation is one exact fraction of naturals,
rounded once to the nearest index with ties to even.
-/

namespace SchemaGen.Numeric

/-- A power of two. -/
def twoPow (n : Nat) : Nat := Nat.pow 2 n

/-- A power of ten. -/
def tenPow (n : Nat) : Nat := Nat.pow 10 n

/-- The number of fractions that an exponent goes with. -/
def fractionCount : Nat := twoPow 52

/-- The number of finite magnitudes: those of 2047 exponents. -/
def finiteCount : Nat := 2047 * fractionCount

/-- The bit of a minus sign. -/
def signBit : Nat := twoPow 63

/-- A binary64 value; all NaN patterns are one. -/
inductive Binary64 where
  | nan
  | infinity (negative : Bool)
  | finite (negative : Bool) (magnitude : Fin finiteCount)
  deriving DecidableEq, Repr

/-- The value of a magnitude in units of 2^-1074. -/
def units (magnitude : Nat) : Nat :=
  if magnitude < fractionCount then magnitude
  else (fractionCount + magnitude % fractionCount) * twoPow (magnitude / fractionCount - 1)

/-- One in units. -/
def unitsPerOne : Nat := twoPow 1074

/-- The integer nearest `num / den`; a half goes to the even neighbour. -/
def roundHalfEven (num den : Nat) : Nat :=
  let below := num / den
  let rest := num % den
  if 2 * rest < den then below
  else if den < 2 * rest then below + 1
  else below + below % 2

/-- The index of the magnitude nearest `num / den`, counted as if there were no largest one.
The significand keeps 53 bits: with `shift` bits dropped the index moves by `shift` exponents,
and a carry out of the significand lands in the next exponent by itself. -/
def nearestIndex (num den : Nat) : Nat :=
  let shift := (num * unitsPerOne / den).log2 - 52
  roundHalfEven (num * unitsPerOne) (den * twoPow shift) + shift * fractionCount

namespace Binary64

/-- The value at an index; indices past the finite ones are infinite. -/
def ofIndex (negative : Bool) (index : Nat) : Binary64 :=
  if h : index < finiteCount then finite negative ⟨index, h⟩ else infinity negative

/-- The value nearest `num / den`, with a sign. -/
def ofRatio (negative : Bool) (num den : Nat) : Binary64 :=
  ofIndex negative (nearestIndex num den)

/-- The value nearest a natural number. -/
def ofNat (n : Nat) : Binary64 := ofRatio false n 1

def zero : Binary64 := finite false ⟨0, by decide⟩

def isNaN : Binary64 → Bool
  | nan => true
  | _ => false

def isFinite : Binary64 → Bool
  | finite _ _ => true
  | _ => false

def neg : Binary64 → Binary64
  | nan => nan
  | infinity s => infinity (!s)
  | finite s m => finite (!s) m

/-- Numeric equality: NaN equals nothing and the two zeros are equal. -/
def equal : Binary64 → Binary64 → Bool
  | infinity s, infinity t => s == t
  | finite s m, finite t n => m == n && (s == t || m.val == 0)
  | _, _ => false

/-- The value of a finite number in units. -/
def signedUnits (negative : Bool) (magnitude : Nat) : Int :=
  if negative then -(units magnitude : Int) else units magnitude

def add : Binary64 → Binary64 → Binary64
  | finite s m, finite t n =>
    let sum := signedUnits s m + signedUnits t n
    ofRatio (sum < 0 || (sum == 0 && s && t)) sum.natAbs unitsPerOne
  | infinity s, infinity t => if s == t then infinity s else nan
  | infinity s, finite _ _ => infinity s
  | finite _ _, infinity t => infinity t
  | _, _ => nan

def mul : Binary64 → Binary64 → Binary64
  | finite s m, finite t n => ofRatio (s != t) (units m * units n) (unitsPerOne * unitsPerOne)
  | infinity s, infinity t => infinity (s != t)
  | infinity s, finite t n => if n.val == 0 then nan else infinity (s != t)
  | finite s m, infinity t => if m.val == 0 then nan else infinity (s != t)
  | _, _ => nan

def div : Binary64 → Binary64 → Binary64
  | finite s m, finite t n =>
    if n.val == 0 then (if m.val == 0 then nan else infinity (s != t))
    else ofRatio (s != t) (units m) (units n)
  | infinity s, finite t _ => infinity (s != t)
  | finite s _, infinity t => finite (s != t) ⟨0, by decide⟩
  | _, _ => nan

/-- The bit pattern; NaN has the quiet one. -/
def toBits : Binary64 → Nat
  | nan => finiteCount + twoPow 51
  | infinity s => (if s then signBit else 0) + finiteCount
  | finite s m => (if s then signBit else 0) + m

def ofBits (bits : Nat) : Binary64 :=
  let negative := bits / signBit % 2 == 1
  let index := bits % signBit
  if index ≤ finiteCount then ofIndex negative index else nan

end Binary64
end SchemaGen.Numeric
