import SchemaGen.Files.Tree

namespace SchemaGen.Files

inductive Written where
  | written (path : String) (bytes : Nat)
  | unchanged (path : String)
  | dryRun (path content : String)
  deriving DecidableEq

def Written.path : Written → String
  | written path _ | unchanged path | dryRun path _ => path

inductive WriteError where
  | directory (path : String) (fault : Fault)
  | file (path : String) (fault : Fault)
  deriving DecidableEq

def WriteError.message : WriteError → String
  | directory path fault => "Failed to create directory " ++ path ++ ": " ++ fault.message
  | file path fault => "Failed to write file " ++ path ++ ": " ++ fault.message

namespace Tree

/-- Whether a path holds exactly this text. -/
def holds (t : Tree) (path content : String) : Bool :=
  match t.readText path with
  | .ok text => text == content
  | .error _ => false

/-- Makes the directories above a path where nothing is yet. -/
def prepare (t : Tree) (path : String) : Tree × Option WriteError :=
  match Path.parent? path with
  | some up =>
    if up.isEmpty || t.has up then (t, none)
    else
      let (t, fault) := t.makeDirectories up
      (t, fault.map (.directory up))
  | none => (t, none)

/-- Writes a text to a path, or only tells of it in a dry run. -/
def writeFile (t : Tree) (dryRun : Bool) (path content : String) :
    Tree × Except WriteError Written :=
  if dryRun then (t, .ok (.dryRun path content))
  else if t.holds path content then (t, .ok (.unchanged path))
  else match t.prepare path with
    | (t, some e) => (t, .error e)
    | (t, none) =>
      match t.writeText path content with
      | .ok t => (t, .ok (.written path content.utf8ByteSize))
      | .error fault => (t, .error (.file path fault))

end Tree
end SchemaGen.Files
