import SchemaGen.Json.Value
import SchemaGen.Json.Number

namespace SchemaGen.Json

open Numeric

def skipBlanks (cs : List Char) : List Char :=
  cs.dropWhile fun c => c == ' ' || c == '\n' || c == '\t' || c == '\r'

/-- A character of a text, or a code unit written with its number. -/
inductive Piece where
  | char (c : Char)
  | unit (n : Nat)

def isHexDigit (c : Char) : Bool := hasDigit 16 c

/-- What a character stands for after a backslash. -/
def escaped? : Char → Option Char
  | '"' => some '"'
  | '\\' => some '\\'
  | '/' => some '/'
  | 'b' => some '\x08'
  | 'f' => some '\x0c'
  | 'n' => some '\n'
  | 'r' => some '\r'
  | 't' => some '\t'
  | _ => none

/-- The pieces up to the closing quote, and the rest. -/
def pieces : List Char → Option (List Piece × List Char)
  | [] => none
  | '"' :: rest => some ([], rest)
  | '\\' :: 'u' :: a :: b :: c :: d :: rest =>
    if [a, b, c, d].all isHexDigit then
      (pieces rest).map fun (ps, tail) => (.unit (ofDigits 16 [a, b, c, d]) :: ps, tail)
    else none
  | '\\' :: e :: rest => do
    let c ← escaped? e
    let (ps, tail) ← pieces rest
    pure (.char c :: ps, tail)
  | c :: rest =>
    if c.toNat < 32 || c = '\\' then none
    else (pieces rest).map fun (ps, tail) => (.char c :: ps, tail)

def isHighSurrogate (n : Nat) : Bool := 0xD800 ≤ n && n < 0xDC00

def isLowSurrogate (n : Nat) : Bool := 0xDC00 ≤ n && n < 0xE000

/-- The characters of the pieces, if every surrogate has its pair. -/
def combine? : List Piece → Option (List Char)
  | [] => some []
  | .char c :: rest => (c :: ·) <$> combine? rest
  | .unit high :: .unit low :: rest =>
    if isHighSurrogate high then
      if isLowSurrogate low then
        (Char.ofNat (0x10000 + (high - 0xD800) * 0x400 + (low - 0xDC00)) :: ·) <$> combine? rest
      else none
    else if isLowSurrogate high then none
    else (Char.ofNat high :: ·) <$> combine? (.unit low :: rest)
  | .unit n :: rest =>
    if isHighSurrogate n || isLowSurrogate n then none
    else (Char.ofNat n :: ·) <$> combine? rest

/-- A text after its opening quote; none inside where it stands for no text. -/
def quoted? (cs : List Char) : Option (Option String × List Char) :=
  (pieces cs).map fun (ps, rest) => ((combine? ps).map String.ofList, rest)

/-- Digits, at least one. -/
def digits? (cs : List Char) : Option (List Char × List Char) :=
  match cs.takeWhile isDigit with
  | [] => none
  | ds => some (ds, cs.dropWhile isDigit)

def fraction? : List Char → Option (Option (List Char) × List Char)
  | '.' :: rest => (digits? rest).map fun (ds, rest) => (some ds, rest)
  | cs => some (none, cs)

def exponent? : List Char → Option (Option (Bool × List Char) × List Char)
  | 'e' :: rest | 'E' :: rest =>
    let (down, rest) := takeSign rest
    (digits? rest).map fun (ds, rest) => (some (down, ds), rest)
  | cs => some (none, cs)

/-- A number. A leading zero stands alone. -/
def number? (cs : List Char) : Option (NumberText × List Char) := do
  let (negative, cs) := match cs with
    | '-' :: rest => (true, rest)
    | cs => (false, cs)
  let (whole, rest) ← digits? cs
  if whole.head? == some '0' && whole.length ≠ 1 then none
  let (fraction, rest) ← fraction? rest
  let (exponent, rest) ← exponent? rest
  pure (⟨negative, whole, fraction, exponent⟩, rest)

/-- An object whose keys are texts. -/
def ofMembers (members : List (Option String × Json)) : Json :=
  match members.mapM fun (key, value) => key.map (·, value) with
  | some members => .object members
  | none => .invalid

def ofText : Option String → Json
  | some s => .string s
  | none => .invalid

def ofNumber (n : NumberText) : Json :=
  match n.natural?, n.value? with
  | some k, _ => .natural k
  | none, some x => .number x
  | none, none => .invalid

mutual

/-- A value, with the blanks before it and the rest after it. -/
def valueUpTo : Nat → List Char → Option (Json × List Char)
  | 0, _ => none
  | bound + 1, cs =>
    match skipBlanks cs with
    | 'n' :: 'u' :: 'l' :: 'l' :: rest => some (.null, rest)
    | 't' :: 'r' :: 'u' :: 'e' :: rest => some (.bool true, rest)
    | 'f' :: 'a' :: 'l' :: 's' :: 'e' :: rest => some (.bool false, rest)
    | '"' :: rest => (quoted? rest).map fun (s, rest) => (ofText s, rest)
    | '[' :: rest =>
      match skipBlanks rest with
      | ']' :: rest => some (.array [], rest)
      | rest => (itemsUpTo bound rest).map fun (items, rest) => (.array items, rest)
    | '\x7b' :: rest =>
      match skipBlanks rest with
      | '\x7d' :: rest => some (.object [], rest)
      | rest => (membersUpTo bound rest).map fun (members, rest) => (ofMembers members, rest)
    | cs => (number? cs).map fun (n, rest) => (ofNumber n, rest)

/-- The items of an array up to its closing bracket. -/
def itemsUpTo : Nat → List Char → Option (List Json × List Char)
  | 0, _ => none
  | bound + 1, cs => do
    let (item, rest) ← valueUpTo bound cs
    match skipBlanks rest with
    | ',' :: rest => (itemsUpTo bound rest).map fun (items, rest) => (item :: items, rest)
    | ']' :: rest => some ([item], rest)
    | _ => none

/-- The members of an object up to its closing brace. -/
def membersUpTo : Nat → List Char → Option (List (Option String × Json) × List Char)
  | 0, _ => none
  | bound + 1, cs => do
    match skipBlanks cs with
    | '"' :: rest =>
      let (key, rest) ← quoted? rest
      match skipBlanks rest with
      | ':' :: rest =>
        let (value, rest) ← valueUpTo bound rest
        match skipBlanks rest with
        | ',' :: rest =>
          (membersUpTo bound rest).map fun (members, rest) => ((key, value) :: members, rest)
        | '\x7d' :: rest => some ([(key, value)], rest)
        | _ => none
      | _ => none
    | _ => none

end

/-- The value that fills a text. Every step takes a character, so its length bounds the steps. -/
def parse? (source : String) : Option Json :=
  match valueUpTo (source.length + 1) source.toList with
  | some (value, rest) => if (skipBlanks rest).isEmpty then some value else none
  | none => none

end SchemaGen.Json
