import SchemaGen.Peg.Furthest
import SchemaGen.Idl.Grammar
import SchemaGen.Idl.Parser
import SchemaGen.Text.Quoted

namespace SchemaGen.Idl

/-- Lines and columns count from one. -/
structure Diagnostic where
  line : Nat
  column : Nat
  message : String
  deriving DecidableEq, Repr, Inhabited

/-- The line and column after some characters, started from given ones. A carriage return before
a line feed belongs to the line break. -/
def advance (line column : Nat) : List Char → Nat × Nat
  | [] => (line, column)
  | '\r' :: '\n' :: rest => advance (line + 1) 1 rest
  | '\n' :: rest => advance (line + 1) 1 rest
  | _ :: rest => advance line (column + 1) rest

/-- A list of alternatives in words. -/
def alternatives : List String → String
  | [] => ""
  | [a] => a
  | [a, b] => a ++ " or " ++ b
  | names => Text.joinWith ", " names.dropLast ++ ", or " ++ names.getLastD ""

/-- The bound covers every path: each character is passed in one nesting of at most 64 steps. -/
def furthest (source : List Char) : Peg.Trail Rule :=
  (grammar.track (64 * (source.length + 2)) .spaced (.rule .document) ⟨0, source⟩ {}).2

def diagnose (source : String) : Diagnostic :=
  let trail := furthest source.toList
  let (line, column) := advance 1 1 (source.toList.take trail.position)
  let names := (Rule.all.filter (· ∈ trail.rules)).map Rule.name
  ⟨line, column, "expected " ++ alternatives names⟩

/-- The document that fills a text, or what is wrong with the text. -/
def parse (source : String) : Except Diagnostic Document :=
  match document? source with
  | some d => .ok d
  | none => .error (diagnose source)

end SchemaGen.Idl
