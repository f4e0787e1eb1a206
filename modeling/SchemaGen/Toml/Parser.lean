import SchemaGen.Toml.Scalar
import SchemaGen.Toml.Text
import SchemaGen.Toml.Value

namespace SchemaGen.Toml

def isBlank (c : Char) : Bool := c == ' ' || c == '\t'

def skipBlanks (cs : List Char) : List Char := cs.dropWhile isBlank

mutual

/-- Past blanks, line breaks and comments. -/
def skipGap : List Char → List Char
  | ' ' :: rest | '\t' :: rest | '\n' :: rest | '\r' :: '\n' :: rest => skipGap rest
  | '#' :: rest => skipComment rest
  | cs => cs

def skipComment : List Char → List Char
  | '\n' :: rest | '\r' :: '\n' :: rest => skipGap rest
  | c :: rest => if isPlain c then skipComment rest else c :: rest
  | [] => []

end

/-- Past the end of a line, with a comment before it. -/
def lineEnd? (cs : List Char) : Option (List Char) :=
  let rest := match skipBlanks cs with
    | '#' :: rest => rest.dropWhile isPlain
    | rest => rest
  match rest with
  | [] => some []
  | '\n' :: rest | '\r' :: '\n' :: rest => some rest
  | _ => none

def isKeyChar (c : Char) : Bool :=
  isDigit c || ('a' ≤ c && c ≤ 'z') || ('A' ≤ c && c ≤ 'Z') || c == '_' || c == '-'

/-- A key, bare or quoted. -/
def simpleKey? (cs : List Char) : Option (String × List Char) :=
  match quotedKey? cs with
  | some (text, rest) => some (String.ofList text, rest)
  | none =>
    match cs.takeWhile isKeyChar with
    | [] => none
    | key => some (String.ofList key, cs.dropWhile isKeyChar)

/-- Keys with dots and blanks between them. -/
def keyUpTo : Nat → List Char → Option (List String × List Char)
  | 0, _ => none
  | bound + 1, cs => do
    let (key, rest) ← simpleKey? (skipBlanks cs)
    match skipBlanks rest with
    | '.' :: rest => do
      let (keys, rest) ← keyUpTo bound rest
      pure (key :: keys, rest)
    | rest => some ([key], rest)

/-- The most containers in one another, and the most keys of one path. -/
def depthLimit : Nat := 80

/-- A path of keys, and the rest after the blanks behind it. -/
def key? (cs : List Char) : Option (List String × List Char) :=
  (keyUpTo (cs.length + 1) cs).filter fun (path, _) => path.length ≤ depthLimit

/-- The value of a key in a table replaced. -/
def Table.update (t : Table) (key : String) (value : Value) : Table :=
  t.map fun e => if e.1 == key then (key, value) else e

/-- Changes the table at the end of a path and makes tables on the way. -/
def descend (dotted : Bool) (change : Table → Option Table) : List String → Table → Option Table
  | [], t => change t
  | key :: path, t =>
    match t.lookup key with
    | none => do
      let made ← descend dotted change path []
      pure (t ++ [(key, .table (if dotted then .dotted else .implied) made)])
    | some (.table form entries) => do
      if form = .braces || (dotted && form = .header) then none
      if dotted && path.isEmpty && form ≠ .dotted then none
      let changed ← descend dotted change path entries
      pure (Table.update t key (.table form changed))
    | some (.tables (last :: others)) => do
      if dotted && path.isEmpty then none
      let changed ← descend dotted change path last
      pure (Table.update t key (.tables (changed :: others)))
    | some _ => none

/-- Adds a new key to a table. -/
def addNew (key : String) (value : Value) (t : Table) : Option Table :=
  if (t.lookup key).isSome then none else some (t ++ [(key, value)])

/-- Sets a dotted key, which must be new. -/
def setKey (path : List String) (value : Value) (t : Table) : Option Table :=
  match path.getLast? with
  | none => none
  | some key => descend true (addNew key value) path.dropLast t

/-- Opens a table under a header and fills it. A table that only stood on the way to others may be
opened once. -/
def openTable (fill : Table → Option Table) (key : String) (t : Table) : Option Table :=
  match t.lookup key with
  | none => do
    let filled ← fill []
    pure (t ++ [(key, .table .header filled)])
  | some (.table .implied entries) => do
    let filled ← fill entries
    pure (Table.update t key (.table .header filled))
  | some _ => none

/-- Opens one more table under a repeated header and fills it. -/
def openNext (fill : Table → Option Table) (key : String) (t : Table) : Option Table := do
  let filled ← fill []
  match t.lookup key with
  | none => pure (t ++ [(key, .tables [filled])])
  | some (.tables items) => pure (Table.update t key (.tables (filled :: items)))
  | some _ => none

/-- Characters that end a bare word. A quote does not. -/
def endsWord (c : Char) : Bool :=
  c == '=' || c == ',' || c == '[' || c == ']' || c == '\x7b' || c == '\x7d' || c == ' ' ||
    c == '\t' || c == '#' || c == '\r' || c == '\n'

/-- A bare word. A date may go on with a time after a blank. -/
def word (cs : List Char) : List Char × List Char :=
  let text := cs.takeWhile (!endsWord ·)
  match date? text, cs.drop text.length with
  | some [], ' ' :: rest =>
    let time := rest.takeWhile (!endsWord ·)
    if (time? time).isSome then (text ++ ' ' :: time, rest.drop time.length)
    else (text, ' ' :: rest)
  | _, rest => (text, rest)

mutual

/-- A value and the rest after it, with room for some containers in one another. -/
def valueUpTo : Nat → Nat → List Char → Option (Value × List Char)
  | 0, _, _ => none
  | bound + 1, room, cs =>
    match cs, room with
    | '[' :: _, 0 | '\x7b' :: _, 0 => none
    | '[' :: rest, room + 1 => itemsUpTo bound room [] (skipGap rest)
    | '\x7b' :: rest, room + 1 => entriesUpTo bound room [] (skipGap rest)
    | '"' :: _, _ | '\'' :: _, _ =>
      (quoted? cs).map fun (text, rest) => (.text (String.ofList text), rest)
    | cs, _ => (wordValue? (word cs).1).map fun v => (v, (word cs).2)

/-- The items of an array; a comma may stand after the last. -/
def itemsUpTo : Nat → Nat → List Value → List Char → Option (Value × List Char)
  | 0, _, _, _ => none
  | bound + 1, room, items, cs =>
    match cs with
    | ']' :: rest => some (.array items, rest)
    | cs => do
      let (item, rest) ← valueUpTo bound room cs
      match skipGap rest with
      | ',' :: rest => itemsUpTo bound room (items ++ [item]) (skipGap rest)
      | ']' :: rest => some (.array (items ++ [item]), rest)
      | _ => none

/-- The entries of a table in braces, with line breaks anywhere but inside a path; a comma may
stand after the last. -/
def entriesUpTo : Nat → Nat → Table → List Char → Option (Value × List Char)
  | 0, _, _, _ => none
  | bound + 1, room, entries, cs =>
    match cs with
    | '\x7d' :: rest => some (.table .braces entries, rest)
    | cs => do
      let (path, rest) ← key? cs
      match skipGap rest with
      | '=' :: rest =>
        let (value, rest) ← valueUpTo bound room (skipGap rest)
        let entries ← setKey path value entries
        match skipGap rest with
        | ',' :: rest => entriesUpTo bound room entries (skipGap rest)
        | '\x7d' :: rest => some (.table .braces entries, rest)
        | _ => none
      | _ => none

end

/-- A key with its value, to the end of its line. -/
def assignment? (cs : List Char) : Option ((List String × Value) × List Char) := do
  let (path, rest) ← key? cs
  match rest with
  | '=' :: rest =>
    let rest := skipBlanks rest
    let (value, rest) ← valueUpTo (rest.length + 1) depthLimit rest
    let rest ← lineEnd? rest
    pure ((path, value), rest)
  | _ => none

/-- A header, doubled if it is repeated. -/
structure Heading where
  repeated : Bool
  path : List String

def heading? (cs : List Char) : Option (Heading × List Char) :=
  match cs with
  | '[' :: '[' :: rest => do
    let (path, rest) ← key? rest
    match rest with
    | ']' :: ']' :: rest => do
      let rest ← lineEnd? rest
      pure (⟨true, path⟩, rest)
    | _ => none
  | '[' :: rest => do
    let (path, rest) ← key? rest
    match rest with
    | ']' :: rest => do
      let rest ← lineEnd? rest
      pure (⟨false, path⟩, rest)
    | _ => none
  | _ => none

/-- A line that counts. -/
inductive Line where
  | heading (h : Heading)
  | assignment (path : List String) (value : Value)

/-- The lines of a file. -/
def linesUpTo : Nat → List Char → Option (List Line)
  | 0, _ => none
  | bound + 1, cs =>
    match skipGap cs with
    | [] => some []
    | '[' :: rest => do
      let (h, rest) ← heading? ('[' :: rest)
      let lines ← linesUpTo bound rest
      pure (.heading h :: lines)
    | rest => do
      let ((path, value), rest) ← assignment? rest
      let lines ← linesUpTo bound rest
      pure (.assignment path value :: lines)

/-- Fills a table with the assignments up to the next heading. -/
def fill : List Line → Table → Option Table
  | .assignment path value :: rest, t => (setKey path value t).bind (fill rest)
  | _, t => some t

/-- Adds the lines of each heading to a table. -/
def addSections : List Line → Table → Option Table
  | [], t => some t
  | .assignment _ _ :: rest, t => addSections rest t
  | .heading h :: rest, t => do
    let key ← h.path.getLast?
    let enter := if h.repeated then openNext (fill rest) key else openTable (fill rest) key
    let t ← descend false enter h.path.dropLast t
    addSections rest t

/-- The table of a file; a byte order mark in front does not count. -/
def parse? (source : String) : Option Table := do
  let cs := match source.toList with
    | '\ufeff' :: rest => rest
    | cs => cs
  let lines ← linesUpTo (source.length + 1) cs
  let top ← fill lines []
  addSections lines top

end SchemaGen.Toml
