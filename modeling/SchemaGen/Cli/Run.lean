import SchemaGen.Cli.Arguments
import SchemaGen.Project.Error

namespace SchemaGen.Cli

open Files

/-- The state of a run: the files and the printed text. -/
structure World where
  tree : Tree
  output : String := ""

/-- What was printed and changed before an error stays. -/
abbrev Run := ExceptT RunError (StateM World)

def printLine (line : String) : Run Unit :=
  modify fun w => { w with output := w.output ++ line ++ "\n" }

/-- A result that does not change the files. -/
def ofExcept {ε α : Type} (wrap : ε → RunError) : Except ε α → Run α
  | .ok a => pure a
  | .error e => throw (wrap e)

/-- Writes a file; a failure too may leave new directories behind. -/
def write (dryRun : Bool) (g : Generated) : Run Written := do
  let w ← get
  let (tree, result) := w.tree.writeFile dryRun g.output g.content
  set { w with tree := tree }
  ofExcept .write result

def rule : String := String.ofList (List.replicate 60 '─')

def tell : Written → Run Unit
  | .written path bytes => printLine ("✓ Written " ++ toString bytes ++ " bytes to " ++ path)
  | .unchanged path => printLine ("✓ Unchanged " ++ path)
  | .dryRun path content => do
    printLine ("[dry-run] Would write to " ++ path ++ ":")
    printLine rule
    printLine content
    printLine rule

def loadConfig (path : Option String) : Run Config := do
  ofExcept .config (Config.load (← get).tree path)

/-- Scans, converts everything, and only then writes. -/
def generate (input : String) (config : Config) (filter : Option String) (dryRun : Bool) :
    Run Unit := do
  printLine "Scanning for Thrift files..."
  let tree := (← get).tree
  let sources ← ofExcept .scan (tree.scanWith input true filter)
  printLine ("  Found " ++ toString sources.length ++ " Thrift file(s)")
  printLine "Generating Zod schemas..."
  let report ← ofExcept .generate (config.generate tree (tree.isFile input) sources)
  report.warnings.forM fun (source, w) => printLine ("  Warning: " ++ source ++ ": " ++ w.message)
  report.skipped.forM fun path =>
    printLine ("  Note: " ++ path ++ " declares no structs, skipped")
  if report.modules.isEmpty then throw (.generate .noStructs)
  printLine ("  Generated " ++ toString report.schemaTotal ++ " schema(s)")
  report.modules.forM fun g => do tell (← write dryRun g)

/-- Writes the default configuration. -/
def init (output : String) (force : Bool) : Run Unit := do
  let w ← get
  if w.tree.has output && !force then throw (.configExists output)
  let tree ← ofExcept .io (w.tree.writeText output Config.defaultContent)
  set { w with tree := tree }
  printLine ("✓ Created configuration file: " ++ output)

/-- Compares a module with what its source gives now; blanks around them do not count. -/
def validate (path input : String) (configPath : Option String) : Run Unit := do
  printLine "Validating schemas..."
  let tree := (← get).tree
  if !tree.has path then throw (.schemaNotFound path)
  let existing ← ofExcept .io (tree.readText path)
  let config ← loadConfig configPath
  let expected ← ofExcept .generate (config.content tree input)
  if Text.trim existing.toList = Text.trim expected.toList then
    printLine "✓ Schemas are up-to-date"
  else
    printLine "✗ Schemas are out of date"
    printLine "  Run 'thrift-zod generate' to update"
    throw .outOfDate

def version : String := "thrift-zod 0.1.0"

def usage : String := "usage: thrift-zod generate | init | validate [options]"

def run : Command → Run Unit
  | .generate input dryRun config filter overrides => do
    let config ← loadConfig config
    generate input (config.override overrides) filter dryRun
  | .init output force => init output force
  | .validate path input config => validate path input config
  | .version => printLine version
  | .help => printLine usage

/-- What a run leaves behind. -/
structure Outcome where
  exitCode : Nat
  output : String
  errors : String
  tree : Tree

/-- A run with a command line, which has to make sense first. -/
def execute (args : List String) (tree : Tree) : Outcome :=
  match command? args with
  | none => ⟨2, "", "usage", tree⟩
  | some c =>
    match (run c).run.run { tree := tree } with
    | (.ok (), w) => ⟨0, w.output, "", w.tree⟩
    | (.error e, w) => ⟨e.exitCode, w.output, e.report, w.tree⟩

end SchemaGen.Cli
