import SchemaGen.Files.Scan
import SchemaGen.Project.Config

namespace SchemaGen

open Files

/-- A module and where it goes. -/
structure Generated where
  source : String
  output : String
  content : String
  schemas : List String
  warnings : List Warning
  deriving Inhabited

structure Report where
  modules : List Generated
  /-- Sources without structs. -/
  skipped : List String
  deriving Inhabited

namespace Report

def schemaTotal (r : Report) : Nat := r.modules.foldl (fun n g => n + g.schemas.length) 0

/-- All warnings with their sources. -/
def warnings (r : Report) : List (String × Warning) :=
  r.modules.flatMap fun g => g.warnings.map (g.source, ·)

end Report

namespace Config

variable (c : Config)

/-- A single source has a file name of its own; others keep their places below the directory. -/
def destination (single : Bool) (relative : String) : String :=
  Path.join c.dir (if single then c.file else Path.withExtension relative "ts")

def convert (t : Tree) (single : Bool) (f : Source) : Except SourceError Generated := do
  let derived ← deriveFile t c.options f.path
  let content ← c.style.emit derived.structs
  pure ⟨f.path, c.destination single f.relative, content,
    derived.structs.map fun s => c.style.exportName s.name, derived.warnings⟩

/-- Converts sources in order, and nothing is written before all are. One without structs is
skipped, and any other failure ends the run. -/
def generate (t : Tree) (single : Bool) : List Source → Except SourceError Report
  | [] => .ok ⟨[], []⟩
  | f :: rest =>
    match c.convert t single f with
    | .ok g => (generate t single rest).map fun r => { r with modules := g :: r.modules }
    | .error .noStructs =>
      (generate t single rest).map fun r => { r with skipped := f.path :: r.skipped }
    | .error e => .error e

/-- The module text of a source. -/
def content (t : Tree) (path : String) : Except SourceError String :=
  moduleOf t c.options c.style path

end Config
end SchemaGen
