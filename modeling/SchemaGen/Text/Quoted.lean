import SchemaGen.Text.Split

namespace SchemaGen.Text

/-- A text with another in the place of each occurrence of a character. -/
def replaceChar (c : Char) (other cs : List Char) : List Char :=
  cs.flatMap fun d => if d = c then other else [d]

/-- A text with another in the place of each occurrence of a character before a second. -/
def replacePair (c d : Char) (other : List Char) : List Char → List Char
  | a :: b :: rest =>
    if a = c ∧ b = d then other ++ replacePair c d other rest
    else a :: replacePair c d other (b :: rest)
  | cs => cs

/-- A text to stand between single quotes. Backslashes are doubled before any other is put in. -/
def escape (s : String) : String :=
  let cs := replaceChar '\\' ['\\', '\\'] s.toList
  let cs := replaceChar '\'' ['\\', '\''] cs
  let cs := replaceChar '\n' ['\\', 'n'] cs
  let cs := replaceChar '\r' ['\\', 'r'] cs
  String.ofList (replaceChar '\t' ['\\', 't'] cs)

/-- How a character stands between single quotes. -/
def escapeChar : Char → List Char
  | '\\' => ['\\', '\\']
  | '\'' => ['\\', '\'']
  | '\n' => ['\\', 'n']
  | '\r' => ['\\', 'r']
  | '\t' => ['\\', 't']
  | c => [c]

/-- A single-quoted string literal. -/
def quote (s : String) : String := "'" ++ escape s ++ "'"

def isIdentifierStart (c : Char) : Bool := c.isAlpha || c == '_' || c == '$'

def isIdentifierRest (c : Char) : Bool := c.isAlphanum || c == '_' || c == '$'

/-- Whether a name can stand unquoted, as an object key or after `const`. -/
def isBareName (name : String) : Bool :=
  match name.toList with
  | [] => false
  | c :: rest => isIdentifierStart c && rest.all isIdentifierRest

end SchemaGen.Text
