import SchemaGen.Files.Path
import SchemaGen.Table

namespace SchemaGen.Files

/-- Why the file system refuses. -/
inductive Fault where
  | notFound
  | alreadyThere
  | notDirectory
  | isDirectory
  | nameTooLong
  | nulByte
  | notText
  deriving DecidableEq, Repr

def Fault.message : Fault → String
  | notFound => "No such file or directory (os error 2)"
  | alreadyThere => "File exists (os error 17)"
  | notDirectory => "Not a directory (os error 20)"
  | isDirectory => "Is a directory (os error 21)"
  | nameTooLong => "File name too long (os error 36)"
  | nulByte => "file name contained an unexpected NUL byte"
  | notText => "stream did not contain valid UTF-8"

/-- Bytes that are valid text stand as text. -/
inductive Node where
  | directory
  | text (content : String)
  | binary (bytes : List UInt8)
  deriving DecidableEq, Inhabited

/-- A place in the tree: the names on the way from its root. -/
abbrev Key := List String

/-- All files, in no particular order, and the place of the working directory. Nothing is linked to
another place, and nothing is barred. -/
structure Tree where
  entries : List (Key × Node)
  home : Key
  deriving Inhabited

namespace Tree

/-- The working directory is always there, and so are the directories above it up to the root. -/
def node? (t : Tree) (key : Key) : Option Node :=
  if key.isPrefixOf t.home then some .directory else t.entries.lookup key

def set (t : Tree) (key : Key) (node : Node) : Tree :=
  { t with entries := Table.insert key node t.entries }

def isDirectoryAt (t : Tree) (key : Key) : Bool := t.node? key == some .directory

/-- The most bytes that a name may have. -/
def longestName : Nat := 255

/-- The bytes that no path may have. -/
def pathLimit : Nat := 4096

/-- Paths that lead nowhere whatever is there. -/
def checkPath (path : String) : Except Fault Unit := do
  if path.toList.contains '\x00' then throw .nulByte
  if path.isEmpty then throw .notFound
  if pathLimit ≤ path.utf8ByteSize then throw .nameTooLong

/-- Where a step leads, whatever is there. The root is above itself. -/
def stepTo (key : Key) (name : String) : Key :=
  if name = "." then key else if name = ".." then key.dropLast else key ++ [name]

/-- Steps from a directory, each to something that is there. -/
def walk (t : Tree) (key : Key) : List String → Except Fault Key
  | [] => .ok key
  | name :: rest =>
    if !t.isDirectoryAt key then .error .notDirectory
    else if longestName < name.utf8ByteSize then .error .nameTooLong
    else if (t.node? (stepTo key name)).isNone then .error .notFound
    else walk t (stepTo key name) rest

/-- The steps that a path names. -/
def steps (path : String) : List String := (Path.parts path).filter (· ≠ "")

/-- Where the first step of a path is taken: an absolute path starts at the root, any other at the
working directory. -/
def start (home : Key) (path : String) : Key := if Path.isAbsolute path then [] else home

/-- The place that a path names, whatever is there. -/
def keyOf (home : Key) (path : String) : Key := (steps path).foldl stepTo (start home path)

def endsInSlash (path : String) : Bool := path.toList.getLast? == some '/'

/-- Where a path leads. A slash at its end asks for a directory. -/
def locate (t : Tree) (path : String) : Except Fault Key := do
  checkPath path
  let key ← t.walk (start t.home path) (steps path)
  if endsInSlash path && !t.isDirectoryAt key then throw .notDirectory
  pure key

def has (t : Tree) (path : String) : Bool := (t.locate path).toOption.isSome

def isDirectory (t : Tree) (path : String) : Bool :=
  match t.locate path with
  | .ok key => t.isDirectoryAt key
  | .error _ => false

def isFile (t : Tree) (path : String) : Bool :=
  match t.locate path with
  | .ok key => !t.isDirectoryAt key
  | .error _ => false

def readText (t : Tree) (path : String) : Except Fault String := do
  let key ← t.locate path
  match t.node? key with
  | some (.text content) => pure content
  | some .directory => throw .isDirectory
  | some (.binary _) => throw .notText
  | none => throw .notFound

/-- The directory that a new last step stands in, and that step. -/
def locateNew (t : Tree) (path : String) : Except Fault (Key × String) := do
  checkPath path
  match (steps path).getLast? with
  | none => throw .isDirectory
  | some name =>
    let key ← t.walk (start t.home path) (steps path).dropLast
    if !t.isDirectoryAt key then throw .notDirectory
    if longestName < name.utf8ByteSize then throw .nameTooLong
    pure (key, name)

/-- The place of a file to write, new or old. -/
def locateTarget (t : Tree) (path : String) : Except Fault Key := do
  let (key, name) ← t.locateNew path
  if endsInSlash path || name = "." || name = ".." then throw .isDirectory
  if t.isDirectoryAt (key ++ [name]) then throw .isDirectory
  pure (key ++ [name])

def writeText (t : Tree) (path content : String) : Except Fault Tree := do
  let key ← t.locateTarget path
  pure (t.set key (.text content))

def makeDirectory (t : Tree) (path : String) : Except Fault Tree := do
  let (key, name) ← t.locateNew path
  if name = "." || name = ".." || (t.node? (key ++ [name])).isSome then throw .alreadyThere
  pure (t.set (key ++ [name]) .directory)

/-- Makes a directory that may be there already. -/
def ensureDirectory (t : Tree) (path : String) : Tree × Option Fault :=
  match t.makeDirectory path with
  | .ok made => (made, none)
  | .error fault => (t, if t.isDirectory path then none else some fault)

/-- Makes a directory and those above it, as many as the bound allows. What was made stays when a
later step fails. -/
def makeDirectoriesUpTo : Nat → Tree → String → Tree × Option Fault
  | 0, t, _ => (t, some .notFound)
  | bound + 1, t, path =>
    if path.isEmpty then (t, none)
    else match t.ensureDirectory path, Path.parent? path with
      | (_, some .notFound), some up =>
        match makeDirectoriesUpTo bound t up with
        | (t, none) => t.ensureDirectory path
        | failed => failed
      | done, _ => done

def makeDirectories (t : Tree) (path : String) : Tree × Option Fault :=
  makeDirectoriesUpTo ((Path.parts path).length + 1) t path

/-- A tree with a node at a place and directories on the way to it. -/
def place (t : Tree) (key : Key) (node : Node) : Tree :=
  let above := (List.range (key.length - 1)).map fun n => key.take (n + 1)
  (above.foldl (fun t k => if (t.node? k).isNone then t.set k .directory else t) t).set key node

/-- The places of all texts. -/
def texts (t : Tree) : List (Key × String) :=
  t.entries.filterMap fun (key, node) =>
    match node with
    | .text content => some (key, content)
    | _ => none

end Tree
end SchemaGen.Files
