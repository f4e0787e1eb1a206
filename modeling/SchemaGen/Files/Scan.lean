import SchemaGen.Files.Glob
import SchemaGen.Files.Visibility

namespace SchemaGen.Files

structure Source where
  path : String
  /-- The path from the root of the scan, or the name of a single file. -/
  relative : String
  deriving DecidableEq, Inhabited

inductive ScanError where
  | notFound (root : String)
  | noSources (root : String)
  | invalidPattern (pattern : String) (error : GlobError)
  deriving DecidableEq

def ScanError.message : ScanError → String
  | notFound root => "Input not found: " ++ root
  | noSources root => "No Thrift files found in: " ++ root
  | invalidPattern pattern error => "Invalid filter pattern '" ++ pattern ++ "': " ++ error.message

namespace Tree

def isSource (name : String) : Bool := Path.extension? name == some "thrift"

/-- The order of paths by their components. -/
def precedes : Key → Key → Bool
  | [], _ => true
  | _ :: _, [] => false
  | a :: as, b :: bs => if a = b then precedes as bs else decide (a < b)

/-- The steps from a root to each source below it. -/
def sourcesBelow (t : Tree) (gitignore : Bool) (root : String) (base : Key) : List Key :=
  t.entries.filterMap fun (key, node) =>
    if base.isPrefixOf key && base.length < key.length && node != .directory &&
        isSource (key.getLastD "") && t.reaches gitignore root base key then
      some (key.drop base.length)
    else none

/-- A root of this name stands for the standard input, which holds no files. -/
def standardInput : String := "-"

/-- The single file at a root, or the sources below it. -/
def scan (t : Tree) (root : String) (gitignore : Bool) (filter : Option (List GlobToken)) :
    Except ScanError (List Source) :=
  match t.locate root with
  | .error _ => .error (.notFound root)
  | .ok key =>
    if t.isDirectoryAt key then
      let kept := (t.sourcesBelow gitignore root key).filter fun steps =>
        filter.all (Glob.accepts · (Path.ofParts steps).toList)
      if kept.isEmpty || Path.same root standardInput then .error (.noSources root)
      else
        .ok ((kept.mergeSort precedes).map fun steps =>
          ⟨Path.descend root steps, Path.ofParts steps⟩)
    else .ok [⟨root, (Path.fileName? root).getD root⟩]

/-- A scan with the text of a filter, which is read before the root is looked at. -/
def scanWith (t : Tree) (root : String) (gitignore : Bool) (filter : Option String) :
    Except ScanError (List Source) := do
  match filter with
  | none => t.scan root gitignore none
  | some pattern =>
    match Glob.parse pattern with
    | .error e => throw (.invalidPattern pattern e)
    | .ok tokens => t.scan root gitignore (some tokens)

end Tree
end SchemaGen.Files
