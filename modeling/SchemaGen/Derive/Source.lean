import SchemaGen.Derive.Session
import SchemaGen.Emit.Module
import SchemaGen.Files.Tree
import SchemaGen.Idl.Diagnostic
import SchemaGen.Text.Blank

namespace SchemaGen

open Idl Files

inductive SourceError where
  | unreadable (path : String) (fault : Fault)
  | blank (path : String)
  | malformed (path : Option String) (diagnostics : List Diagnostic)
  | noStructs
  deriving DecidableEq

/-- A diagnostic with its place and its number in a list. -/
def numbered (n : Nat) (d : Diagnostic) : String :=
  "  " ++ toString n ++ ". " ++ toString d.line ++ ":" ++ toString d.column ++ ": " ++ d.message

def SourceError.message : SourceError → String
  | unreadable path fault => "Failed to read IDL source " ++ path ++ ": " ++ fault.message
  | blank path => "Failed to read IDL source " ++ path ++ ": file is empty"
  | malformed path diagnostics =>
    "Thrift parse errors in " ++ path.getD "<source>" ++ ":\n" ++
      Text.joinWith "\n" (diagnostics.mapIdx fun n d => numbered (n + 1) d)
  | noStructs => "No struct schemas to emit"

/-- A reader of interface definitions. -/
abbrev Parser := String → Except (List Diagnostic) Document

/-- The reader of the whole grammar, which stops at the first failure. -/
def standardParser : Parser := fun source =>
  match Idl.parse source with
  | .ok d => .ok d
  | .error d => .error [d]

/-- Reads a text that came from a path, if from any. -/
def deriveWith (parser : Parser) (path : Option String) (options : Options) (source : String) :
    Except SourceError Derived :=
  match parser source with
  | .ok d => .ok (deriveDocument options d)
  | .error diagnostics => .error (.malformed path diagnostics)

def deriveSource (options : Options) (source : String) : Except SourceError Derived :=
  deriveWith standardParser none options source

/-- The module of some structs. -/
def ModuleStyle.emit (style : ModuleStyle) (structs : List Schema) :
    Except SourceError String :=
  match style.moduleText structs with
  | some text => .ok text
  | none => .error .noStructs

/-- Reads a file, which must hold more than blanks. -/
def deriveFileWith (parser : Parser) (t : Tree) (options : Options) (path : String) :
    Except SourceError Derived :=
  match t.readText path with
  | .error fault => .error (.unreadable path fault)
  | .ok source =>
    if (Text.trim source.toList).isEmpty then .error (.blank path)
    else deriveWith parser (some path) options source

def deriveFile (t : Tree) (options : Options) (path : String) : Except SourceError Derived :=
  deriveFileWith standardParser t options path

/-- The module text of a file. -/
def moduleOf (t : Tree) (options : Options) (style : ModuleStyle) (path : String) :
    Except SourceError String := do
  let derived ← deriveFile t options path
  style.emit derived.structs

end SchemaGen
