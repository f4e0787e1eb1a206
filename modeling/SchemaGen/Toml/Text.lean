import SchemaGen.Numeric.Decimal

namespace SchemaGen.Toml

/-- Characters that may stand in texts and comments; control characters may not, but for tabs. -/
def isPlain (c : Char) : Bool := c == '\t' || (0x20 ≤ c.toNat && c.toNat ≠ 0x7F)

def isHex (c : Char) : Bool :=
  ('0' ≤ c && c ≤ '9') || ('a' ≤ c && c ≤ 'f') || ('A' ≤ c && c ≤ 'F')

/-- What a letter stands for after a backslash. -/
def escaped? : Char → Option Char
  | 'b' => some '\x08'
  | 't' => some '\t'
  | 'n' => some '\n'
  | 'f' => some '\x0c'
  | 'r' => some '\r'
  | 'e' => some '\x1b'
  | '"' => some '"'
  | '\\' => some '\\'
  | _ => none

/-- The character of hexadecimal digits, if they denote one. -/
def coded? (digits : List Char) : Option Char :=
  let n := Numeric.ofDigits 16 digits
  if digits.all isHex && n.isValidChar then some (Char.ofNat n) else none

/-- How a quoted text may go on: with one more character, its end, or not at all. -/
abbrev Taken := Option (List Char × List Char)

def Taken.cons (c : Char) (t : Taken) : Taken := t.map fun (text, rest) => (c :: text, rest)

/-- The rest of a basic text on one line. -/
def basic : List Char → Taken
  | '"' :: rest => some ([], rest)
  | '\\' :: 'x' :: a :: b :: rest => (coded? [a, b]).bind fun c => (basic rest).cons c
  | '\\' :: 'u' :: a :: b :: c :: d :: rest =>
    (coded? [a, b, c, d]).bind fun x => (basic rest).cons x
  | '\\' :: 'U' :: a :: b :: c :: d :: e :: f :: g :: h :: rest =>
    (coded? [a, b, c, d, e, f, g, h]).bind fun x => (basic rest).cons x
  | '\\' :: e :: rest => (escaped? e).bind fun c => (basic rest).cons c
  | c :: rest => if isPlain c && c != '\\' then (basic rest).cons c else none
  | [] => none

/-- Whether blanks and then the end of a line come next. -/
def endsLine (cs : List Char) : Bool :=
  match cs.dropWhile fun c => c == ' ' || c == '\t' with
  | '\n' :: _ | '\r' :: '\n' :: _ => true
  | _ => false

/-- The rest of a basic text on several lines. A backslash at the end of a line drops the blanks
and line breaks that follow. Up to two quotes may stand before the closing three. -/
def multiBasic (dropping : Bool) : List Char → Taken
  | '"' :: '"' :: '"' :: '"' :: '"' :: rest => some (['"', '"'], rest)
  | '"' :: '"' :: '"' :: '"' :: rest => some (['"'], rest)
  | '"' :: '"' :: '"' :: rest => some ([], rest)
  | '\\' :: 'x' :: a :: b :: rest => (coded? [a, b]).bind fun c => (multiBasic false rest).cons c
  | '\\' :: 'u' :: a :: b :: c :: d :: rest =>
    (coded? [a, b, c, d]).bind fun x => (multiBasic false rest).cons x
  | '\\' :: 'U' :: a :: b :: c :: d :: e :: f :: g :: h :: rest =>
    (coded? [a, b, c, d, e, f, g, h]).bind fun x => (multiBasic false rest).cons x
  | '\\' :: e :: rest =>
    if endsLine (e :: rest) then multiBasic true (e :: rest)
    else (escaped? e).bind fun c => (multiBasic false rest).cons c
  | '\r' :: '\n' :: rest =>
    if dropping then multiBasic true rest else ((multiBasic false rest).cons '\n').cons '\r'
  | '\n' :: rest => if dropping then multiBasic true rest else (multiBasic false rest).cons '\n'
  | c :: rest =>
    if dropping && (c == ' ' || c == '\t') then multiBasic true rest
    else if isPlain c && c != '\\' then (multiBasic false rest).cons c
    else none
  | [] => none

/-- The rest of a literal text on one line. -/
def literal : List Char → Taken
  | '\'' :: rest => some ([], rest)
  | c :: rest => if isPlain c then (literal rest).cons c else none
  | [] => none

/-- The rest of a literal text on several lines. -/
def multiLiteral : List Char → Taken
  | '\'' :: '\'' :: '\'' :: '\'' :: '\'' :: rest => some (['\'', '\''], rest)
  | '\'' :: '\'' :: '\'' :: '\'' :: rest => some (['\''], rest)
  | '\'' :: '\'' :: '\'' :: rest => some ([], rest)
  | '\r' :: '\n' :: rest => ((multiLiteral rest).cons '\n').cons '\r'
  | '\n' :: rest => (multiLiteral rest).cons '\n'
  | c :: rest => if isPlain c then (multiLiteral rest).cons c else none
  | [] => none

/-- A line break right after the opening of a text on several lines does not count. -/
def dropBreak : List Char → List Char
  | '\r' :: '\n' :: rest | '\n' :: rest => rest
  | cs => cs

/-- A quoted text of any form. -/
def quoted? : List Char → Taken
  | '"' :: '"' :: '"' :: rest => multiBasic false (dropBreak rest)
  | '"' :: rest => basic rest
  | '\'' :: '\'' :: '\'' :: rest => multiLiteral (dropBreak rest)
  | '\'' :: rest => literal rest
  | _ => none

/-- A quoted text on one line, as a key has it. -/
def quotedKey? : List Char → Taken
  | '"' :: rest => basic rest
  | '\'' :: rest => literal rest
  | _ => none

end SchemaGen.Toml
