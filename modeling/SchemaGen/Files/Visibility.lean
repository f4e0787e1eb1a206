import SchemaGen.Files.Ignore
import SchemaGen.Files.Tree

namespace SchemaGen.Files

/-- A directory above an entry, and the path of the entry as the rules there see it. -/
structure Site where
  directory : Key
  path : String

/-- The directories above an entry, the deepest first. From the root of the walk on paths are found
by their texts. -/
def Site.above (root : String) (base key : Key) : List Site :=
  (List.range key.length).reverse.map fun n =>
    if n < base.length then ⟨key.take n, Path.ofParts (key.drop n)⟩
    else
      ⟨key.take n, Path.seenFrom (Path.descend root ((key.take n).drop base.length))
        (Path.descend root (key.drop base.length))⟩

namespace Tree

/-- The lines of some bytes before the first that is no text. A carriage return belongs to the line
end after it. -/
def leadingLines (bytes : List UInt8) : List String :=
  let pieces := bytes.splitOn 10
  let ended := pieces.dropLast.map fun line =>
    if line.getLast? == some 13 then line.dropLast else line
  let lines := ended ++ pieces.getLast?.toList.filter (!·.isEmpty)
  ((lines.map fun line => String.fromUTF8? line.toByteArray).takeWhile Option.isSome).filterMap id

/-- The lines of a file, none if it is not there. -/
def linesAt (t : Tree) (key : Key) : List String :=
  match t.node? key with
  | some (.text content) => leadingLines content.toUTF8.toList
  | some (.binary bytes) => leadingLines bytes
  | _ => []

def linesOf (t : Tree) (path : String) : List String :=
  match t.locate path with
  | .ok key => t.linesAt key
  | .error _ => []

/-- What marks a directory as the top of a repository. -/
def repositoryMarks : List String := [".git", ".jj"]

def isRepository (t : Tree) (directory : Key) : Bool :=
  repositoryMarks.any fun mark => (t.node? (directory ++ [mark])).isSome

/-- The sites up to the top of the nearest repository; none without a repository. -/
def repositoryPart (t : Tree) (sites : List Site) : List Site :=
  let isTop (s : Site) : Bool := t.isRepository s.directory
  if sites.any isTop then sites.takeWhile (!isTop ·) ++ (sites.find? isTop).toList else []

/-- Where the data of a repository is that a file in its place points to. -/
def pointed? (t : Tree) (pointer : Key) : Option String := do
  let line ← (t.linesAt pointer).head?
  pure (String.ofList (← Text.afterFront? "gitdir: ".toList line.toList))

/-- Where a repository keeps what it shares with others: a file in place of its data points to the
data, and a file there to the shared part. -/
def sharedData? (t : Tree) (pointer : Key) : Option String := do
  let data ← t.pointed? pointer
  let shared ← (t.linesOf (Path.join data "commondir")).head?
  pure (if shared.toList.head? == some '.' then Path.join data shared else shared)

/-- The paths that are read where a file stands in place of the data of a repository. -/
def pointedPaths (t : Tree) (pointer : Key) : List String :=
  (t.pointed? pointer).toList.map (Path.join · "commondir") ++
    (t.sharedData? pointer).toList.map (Path.join · "info/exclude")

/-- The lines of the exclude file that belongs to a directory. -/
def excludeLines (t : Tree) (directory : Key) : List String :=
  let mark := directory ++ [".git"]
  if (t.node? mark).isNone || t.isDirectoryAt mark then t.linesAt (mark ++ ["info", "exclude"])
  else match t.sharedData? mark with
    | some shared => t.linesOf (Path.join shared "info/exclude")
    | none => []

/-- What rule files of one kind say of an entry. -/
def verdict? (lines : Key → List String) (isDirectory : Bool) (sites : List Site) :
    Option Verdict :=
  sites.findSome? fun s => Ignore.verdict? (Ignore.parse (lines s.directory)) s.path isDirectory

/-- Whether the rules of the directories above hide an entry. Plain ignore files come before those
of a repository, and these before its exclude file. -/
def isHidden (t : Tree) (gitignore : Bool) (root : String) (base key : Key) : Bool :=
  let sites := Site.above root base key
  let repository := if gitignore then t.repositoryPart sites else []
  let isDirectory := t.isDirectoryAt key
  let verdict :=
    (verdict? (fun d => t.linesAt (d ++ [".ignore"])) isDirectory sites).or <|
    (verdict? (fun d => t.linesAt (d ++ [".gitignore"])) isDirectory repository).or <|
    verdict? t.excludeLines isDirectory repository
  verdict == some .ignored

/-- Whether a walk from a root comes to an entry: nothing on the way is hidden. -/
def reaches (t : Tree) (gitignore : Bool) (root : String) (base key : Key) : Bool :=
  (List.range (key.length - base.length)).all fun n =>
    !t.isHidden gitignore root base (key.take (base.length + n + 1))

end Tree
end SchemaGen.Files
