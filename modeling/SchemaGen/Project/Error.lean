import SchemaGen.Files.Write
import SchemaGen.Project.Generate

namespace SchemaGen

open Files

inductive RunError where
  | scan (e : ScanError)
  | generate (e : SourceError)
  | config (e : ConfigError)
  | write (e : WriteError)
  | outOfDate
  | configExists (path : String)
  | schemaNotFound (path : String)
  | io (fault : Fault)
  deriving DecidableEq

namespace RunError

def message : RunError → String
  | scan e => "Failed to scan input: " ++ e.message
  | generate e => "Failed to generate schemas: " ++ e.message
  | config e => "Failed to load configuration: " ++ e.message
  | write e => "Failed to write output: " ++ e.message
  | outOfDate => "Validation failed: Schemas are out of date"
  | configExists path =>
    "Configuration file already exists: " ++ path ++ " (use --force to overwrite)"
  | schemaNotFound path => "Schema file not found: " ++ path
  | io fault => "IO error: " ++ fault.message

/-- A failed validation has a code of its own. -/
def exitCode : RunError → Nat
  | outOfDate => 2
  | _ => 1

/-- What goes to the error output. The line of a malformed configuration stays open. -/
def report (e : RunError) : String :=
  match e with
  | config (.malformed _) => "Error: " ++ e.message
  | _ => "Error: " ++ e.message ++ "\n"

end RunError
end SchemaGen
