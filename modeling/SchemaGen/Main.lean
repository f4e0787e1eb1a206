import SchemaGen.Cli.Run

namespace SchemaGen

open Files

/-- The paths that a command looks at, as far as the files tell. -/
def Cli.Command.paths (t : Tree) : Cli.Command → List String
  | .generate input _ config _ overrides =>
    let c := ((Config.load t config).toOption.getD {}).override overrides
    [input, config.getD Config.defaultPath, c.dir, Path.join c.dir c.file]
  | .init output _ => [output]
  | .validate path input config => [path, input, config.getD Config.defaultPath]
  | .version | .help => []

/-- The places that a command looks at: those of its paths, and those of the rules that repositories
around them keep away from their directories. -/
def Cli.Command.places (t : Tree) (c : Cli.Command) : List Key :=
  let pointers := (t.entries.map (·.1)).filter (·.getLast? == some ".git")
  let paths := c.paths t ++ pointers.flatMap t.pointedPaths
  paths.flatMap fun path =>
    let place := Tree.keyOf t.home path
    place :: (List.range (place.length + 1)).map (place.take · ++ [".git", "info"])

/-- An entry, and what stands below it on the way to some places or behind them. What is neither a
directory nor a file is left out, and so is what cannot be read. -/
partial def readEntry (places : List Key) (key : Key) (entry : IO.FS.DirEntry) :
    IO (List (Key × Node)) := do
  let key := key ++ [entry.fileName]
  let isLookedInto := places.any fun place => key.isPrefixOf place || place.isPrefixOf key
  try
    match (← entry.path.symlinkMetadata).type with
    | .dir =>
      if isLookedInto then
        let below ← (← entry.path.readDir).toList.mapM (readEntry places key)
        pure ((key, .directory) :: below.flatten)
      else pure [(key, .directory)]
    | .file =>
      let bytes ← IO.FS.readBinFile entry.path
      match String.fromUTF8? bytes with
      | some content => pure [(key, .text content)]
      | none => pure [(key, .binary bytes.toList)]
    | _ => pure []
  catch _ => pure []

/-- The files of the system from its root on. They are read again until all the places are known
that a command looks at. -/
partial def readTree (command : Cli.Command) (places : List Key) : IO Tree := do
  let here ← IO.currentDir
  let entries ← (← (here / "/").readDir).toList.mapM (readEntry places [])
  let tree : Tree := { entries := entries.flatten, home := Tree.steps here.toString }
  let more := (command.places tree).filter (!places.contains ·)
  if more.isEmpty then pure tree else readTree command (places ++ more)

/-- Directories stand before what is in them. -/
def writeChanges (old new : Tree) : IO Unit :=
  new.entries.forM fun (key, node) => do
    if old.node? key != some node then
      let path := Path.ofParts ("" :: key)
      match node with
      | .directory => IO.FS.createDirAll path
      | .text content => IO.FS.writeFile path content
      | .binary bytes => IO.FS.writeBinFile path ⟨bytes.toArray⟩

end SchemaGen

/-- Takes in the files, runs, and writes back what changed. -/
def main (args : List String) : IO UInt32 := do
  let tree ← SchemaGen.readTree ((SchemaGen.Cli.command? args).getD .help) []
  let outcome := SchemaGen.Cli.execute args tree
  SchemaGen.writeChanges tree outcome.tree
  IO.print outcome.output
  IO.eprint outcome.errors
  pure outcome.exitCode.toUInt32
