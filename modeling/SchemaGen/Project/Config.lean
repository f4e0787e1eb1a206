import SchemaGen.Derive.Source
import SchemaGen.Toml.Parser

namespace SchemaGen

open Files

structure Config where
  dir : String := "./generated"
  file : String := "schemas.ts"
  types : Bool := false
  docs : Bool := false
  suffix : String := "Schema"
  disableOptional : Bool := false
  deriving DecidableEq, Inhabited

inductive ConfigError where
  | malformed (path : String)
  | unreadable (path : String) (fault : Fault)
  deriving DecidableEq

/-- What is wrong inside a malformed file is not told. -/
def ConfigError.message : ConfigError → String
  | malformed path => "Invalid TOML in " ++ path ++ ":"
  | unreadable path fault => "Failed to read config " ++ path ++ ": " ++ fault.message

namespace Config

def style (c : Config) : ModuleStyle :=
  { suffix := c.suffix, types := c.types, docs := c.docs }

def options (c : Config) : Options := ⟨c.disableOptional⟩

def defaultPath : String := "thrift-zod.toml"

/-- A configuration file that spells out the defaults. -/
def defaultContent : String :=
  Text.joinWith "\n"
    ["# thrift-zod configuration file",
      "",
      "[output]",
      "# Output directory for generated TypeScript files",
      "dir = \"./generated\"",
      "",
      "# Output file name, used when a single .thrift file is converted",
      "file = \"schemas.ts\"",
      "",
      "# Whether to generate type inference exports (export type X = z.infer<typeof XSchema>)",
      "generate_types = false",
      "",
      "# Whether to emit Thrift field annotations as JSDoc comments",
      "generate_docs = false",
      "",
      "[naming]",
      "# Schema name suffix (e.g., CorgiSchema)",
      "schema_suffix = \"Schema\"",
      "",
      "[features]",
      "# Ignore `optional` requiredness instead of emitting .optional()",
      "disable_optional_fields = false",
      ""]

/-- Whether all entries but those of some keys hold numbers in range. -/
def othersInRange (keys : List String) (t : Toml.Table) : Bool :=
  t.all fun (key, value) => keys.contains key || value.inRange

/-- The values of a section's settings, in the order of their keys; one that is not there has none.
A table holds them by key, and every other entry has to be readable; an array holds them by
position, and no more of it is read; a moment in time holds none. -/
def settings? (t : Toml.Table) (name : String) (keys : List String) :
    Option (List (Option Toml.Value)) :=
  match t.lookup name with
  | none | some .moment => some []
  | some (.table _ entries) =>
    if othersInRange keys entries then some (keys.map (entries.lookup ·)) else none
  | some (.array items) => some (items.map some)
  | some (.tables items) => some (items.reverse.map fun entries => some (.table .header entries))
  | some _ => none

def text? (default : String) : Option Toml.Value → Option String
  | none => some default
  | some (.text s) => some s
  | some _ => none

def truth? (default : Bool) : Option Toml.Value → Option Bool
  | none => some default
  | some (.truth b) => some b
  | some _ => none

/-- The configuration that a table holds. Unknown settings have to be readable and do not count,
and a setting of the wrong kind is an error. -/
def ofTable? (t : Toml.Table) : Option Config := do
  let d : Config := {}
  if !othersInRange ["output", "naming", "features"] t then none
  let output ← settings? t "output" ["dir", "file", "generate_types", "generate_docs"]
  let naming ← settings? t "naming" ["schema_suffix"]
  let features ← settings? t "features" ["disable_optional_fields"]
  pure
    { dir := ← text? d.dir output[0]?.join
      file := ← text? d.file output[1]?.join
      types := ← truth? d.types output[2]?.join
      docs := ← truth? d.docs output[3]?.join
      suffix := ← text? d.suffix naming[0]?.join
      disableOptional := ← truth? d.disableOptional features[0]?.join }

/-- Reads the configuration at a path. Without a file there are the defaults. -/
def load (t : Tree) (path : Option String) : Except ConfigError Config :=
  let path := path.getD defaultPath
  if !t.has path then .ok {}
  else match t.readText path with
    | .error fault => .error (.unreadable path fault)
    | .ok content =>
      match (Toml.parse? content).bind ofTable? with
      | some c => .ok c
      | none => .error (.malformed path)

end Config

/-- Whether a configuration is the default one; another text of the same path is no difference. -/
def Config.isDefault (c : Config) : Bool :=
  let d : Config := {}
  Path.same c.dir d.dir && { c with dir := d.dir } == d

/-- Settings that come before those of a file. -/
structure Overrides where
  dir : Option String := none
  file : Option String := none
  types : Option Bool := none
  docs : Option Bool := none
  disableOptional : Option Bool := none
  deriving DecidableEq, Inhabited

def Config.override (c : Config) (o : Overrides) : Config :=
  { c with
    dir := o.dir.getD c.dir
    file := o.file.getD c.file
    types := o.types.getD c.types
    docs := o.docs.getD c.docs
    disableOptional := o.disableOptional.getD c.disableOptional }

end SchemaGen
