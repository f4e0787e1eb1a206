import SchemaGen.Json.Value
import SchemaGen.Json.Number
import SchemaGen.Text.Quoted

namespace SchemaGen.Json

/-- A hexadecimal digit in lower case. -/
def hexDigit (n : Nat) : Char := Nat.digitChar n

/-- A character between double quotes; control characters are escaped. -/
def escapeChar (c : Char) : List Char :=
  if c = '"' then ['\\', '"']
  else if c = '\\' then ['\\', '\\']
  else if c.toNat = 8 then ['\\', 'b']
  else if c.toNat = 9 then ['\\', 't']
  else if c.toNat = 10 then ['\\', 'n']
  else if c.toNat = 12 then ['\\', 'f']
  else if c.toNat = 13 then ['\\', 'r']
  else if c.toNat < 32 then
    ['\\', 'u', '0', '0', hexDigit (c.toNat / 16), hexDigit (c.toNat % 16)]
  else [c]

def quote (s : String) : String :=
  "\"" ++ String.ofList (s.toList.flatMap escapeChar) ++ "\""

mutual

/-- The text of a value; a number that is not finite is written as `null`. -/
def print : Json → String
  | null => "null"
  | bool b => if b then "true" else "false"
  | natural n => String.ofList (Numeric.decimalDigits n)
  | number n => numberText n
  | string s => quote s
  | array items => "[" ++ Text.joinWith "," (printItems items) ++ "]"
  | object members => "\x7b" ++ Text.joinWith "," (printMembers members) ++ "\x7d"
  | invalid => "null"

def printItems : List Json → List String
  | [] => []
  | item :: rest => print item :: printItems rest

def printMembers : List (String × Json) → List String
  | [] => []
  | (key, value) :: rest => (quote key ++ ":" ++ print value) :: printMembers rest

end
end SchemaGen.Json
