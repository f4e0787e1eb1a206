import SchemaGen.Numeric.Literal

namespace SchemaGen.Idl

/-- Reads a value from the front of a text, or fails and reads nothing. -/
abbrev Reader := StateT (List Char) Option

mutual

/-- Past blanks and comments. A block comment that is never closed is no comment. -/
def skip : List Char → List Char
  | ' ' :: rest | '\t' :: rest | '\r' :: rest | '\n' :: rest => skip rest
  | '#' :: rest => skipLine rest
  | '/' :: '/' :: rest => skipLine rest
  | '/' :: '*' :: rest => skipBlock ('/' :: '*' :: rest) rest
  | cs => cs

/-- Past the rest of a line. -/
def skipLine : List Char → List Char
  | [] => []
  | '\r' :: rest | '\n' :: rest => skip rest
  | _ :: rest => skipLine rest

/-- Past the rest of a block comment with a given opening. -/
def skipBlock (opening : List Char) : List Char → List Char
  | [] => opening
  | '*' :: '/' :: rest => skip rest
  | _ :: rest => skipBlock opening rest

end

def isLetter (c : Char) : Bool := ('a' ≤ c && c ≤ 'z') || ('A' ≤ c && c ≤ 'Z')

def isDigit (c : Char) : Bool := '0' ≤ c && c ≤ '9'

def isHexDigit (c : Char) : Bool := isDigit c || ('a' ≤ c && c ≤ 'f') || ('A' ≤ c && c ≤ 'F')

def isNameStart (c : Char) : Bool := isLetter c || c == '_'

def isNameChar (c : Char) : Bool := isLetter c || isDigit c || c == '_' || c == '.'

/-- The rest after a given start. -/
def dropText? : List Char → List Char → Option (List Char)
  | [], cs => some cs
  | p :: ps, c :: cs => if p = c then dropText? ps cs else none
  | _ :: _, [] => none

/-- A literal text, whatever follows it. -/
def token (text : String) : Reader Unit := fun cs =>
  (dropText? text.toList cs).map fun rest => ((), skip rest)

/-- The longest run of characters of a class, at least one. -/
def run (test : Char → Bool) : Reader (List Char) := fun cs =>
  match cs.takeWhile test with
  | [] => none
  | text => some (text, cs.dropWhile test)

/-- A whole name, dots included. -/
def identifier : Reader String := fun cs =>
  match cs with
  | c :: _ =>
    if isNameStart c then
      some (String.ofList (cs.takeWhile isNameChar), skip (cs.dropWhile isNameChar))
    else none
  | [] => none

/-- A keyword that no name character follows. -/
def word (text : String) : Reader Unit := fun cs =>
  if cs.takeWhile isNameChar = text.toList then some ((), skip (cs.dropWhile isNameChar)) else none

def sign : List Char → List Char × List Char
  | '+' :: rest => (['+'], rest)
  | '-' :: rest => (['-'], rest)
  | cs => ([], cs)

/-- The mark, sign and digits of an exponent. -/
def exponent : Reader (List Char)
  | c :: rest =>
    if c = 'e' ∨ c = 'E' then
      let (s, rest) := sign rest
      (run isDigit rest).map fun (digits, rest) => (c :: s ++ digits, rest)
    else none
  | [] => none

/-- A number with a point followed by a digit, or with an exponent. -/
def double : Reader String := fun cs =>
  let (s, cs) := sign cs
  let whole := cs.takeWhile isDigit
  match cs.dropWhile isDigit with
  | '.' :: rest =>
    (run isDigit rest).map fun (fraction, rest) =>
      let (exp, rest) := (exponent rest).getD ([], rest)
      (String.ofList (s ++ whole ++ '.' :: fraction ++ exp), skip rest)
  | rest =>
    if whole.isEmpty then none
    else (exponent rest).map fun (exp, rest) => (String.ofList (s ++ whole ++ exp), skip rest)

/-- Digits without a sign, in base sixteen after `0x`. -/
def unsigned : Reader (List Char) := fun cs =>
  match cs with
  | '0' :: 'x' :: rest =>
    match run isHexDigit rest with
    | some (digits, rest) => some ('0' :: 'x' :: digits, rest)
    | none => run isDigit cs
  | _ => run isDigit cs

def int : Reader String := fun cs =>
  let (s, cs) := sign cs
  (unsigned cs).map fun (digits, rest) => (String.ofList (s ++ digits), skip rest)

/-- The magnitude of an integer, in base sixteen after `0x`. -/
def magnitude? : List Char → Option Int
  | '0' :: 'x' :: digits => Numeric.readInteger? 16 digits
  | digits => Numeric.readInteger? 10 digits

/-- The integer that a text denotes, if 64 bits hold it. The magnitude is held before its sign, so
the least integer is not. -/
def intValue? (text : String) : Option Int :=
  let (s, digits) := sign text.toList
  (magnitude? digits).map fun m => if s = ['-'] then -m else m

/-- What a character stands for after a backslash. -/
def unescape : Char → Char
  | 'n' => '\n'
  | 't' => '\t'
  | 'r' => '\r'
  | c => c

/-- The rest of a quoted text and what follows it. -/
def quotedRest (mark : Char) : List Char → Option (List Char × List Char)
  | [] => none
  | '\\' :: c :: rest => (quotedRest mark rest).map fun (text, tail) => (unescape c :: text, tail)
  | c :: rest =>
    if c = mark then some ([], rest)
    else (quotedRest mark rest).map fun (text, tail) => (c :: text, tail)

/-- Text in double or single quotes. -/
def quoted : Reader String
  | '"' :: rest => (quotedRest '"' rest).map fun (text, rest) => (String.ofList text, skip rest)
  | '\'' :: rest => (quotedRest '\'' rest).map fun (text, rest) => (String.ofList text, skip rest)
  | _ => none

/-- A comma or a semicolon, which may be left out. -/
def separator : Reader Unit := fun cs =>
  match cs with
  | ',' :: rest | ';' :: rest => some ((), skip rest)
  | _ => some ((), cs)

namespace Reader

/-- One of two readings, the first if it succeeds. -/
def either {α : Type} (p q : Reader α) : Reader α := fun cs =>
  match p cs with
  | some r => some r
  | none => q cs

/-- A reading that may be left out. -/
def maybe {α : Type} (p : Reader α) : Reader (Option α) := fun cs =>
  match p cs with
  | some (a, rest) => some (some a, rest)
  | none => some (none, cs)

/-- A reading repeated as long as it succeeds, at most `bound` times. -/
def manyUpTo {α : Type} (p : Reader α) : Nat → Reader (List α)
  | 0, cs => some ([], cs)
  | bound + 1, cs =>
    match p cs with
    | some (a, rest) => (manyUpTo p bound rest).map fun (as, rest) => (a :: as, rest)
    | none => some ([], cs)

/-- A reading repeated as long as it succeeds. Each takes a character, so the length of the text
bounds their number. -/
def many {α : Type} (p : Reader α) : Reader (List α) := fun cs => manyUpTo p cs.length cs

end Reader
end SchemaGen.Idl
