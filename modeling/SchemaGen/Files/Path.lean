import SchemaGen.Text.Split

namespace SchemaGen.Files

namespace Path

/-- The parts between slashes, which joined again give the path as it was written. -/
def parts (path : String) : List String := (Text.splitOn '/' path.toList).map String.ofList

def ofParts (parts : List String) : String := Text.joinWith "/" parts

/-- The parts that tell paths apart: neither empty ones nor single dots, but for a dot in front. An
absolute path has a slash in front. -/
def components (path : String) : List String :=
  let names := (parts path).filter fun p => p ≠ "" && p ≠ "."
  if path.toList.head? == some '/' then "/" :: names
  else if (parts path).head? == some "." then "." :: names
  else names

/-- Whether two texts are the same path. -/
def same (path other : String) : Bool := components path == components other

/-- The parts without empty ones and single dots at the end; the first part always stays. -/
def trimParts (parts : List String) : List String :=
  match parts with
  | [] => []
  | first :: rest => first :: (rest.reverse.dropWhile fun p => p == "" || p == ".").reverse

def isAbsolute (path : String) : Bool := path.toList.head? == some '/'

/-- An absolute path replaces the base; an empty base adds no slash. -/
def join (base path : String) : String :=
  if isAbsolute path then path
  else if base.isEmpty || base.toList.getLast? == some '/' then base ++ path
  else base ++ "/" ++ path

/-- The path after some steps down. -/
def descend (base : String) (steps : List String) : String := steps.foldl join base

/-- A text without one step to the same directory in front. -/
def withoutDot (path : String) : String :=
  match path.toList with
  | '.' :: '/' :: rest => String.ofList rest
  | _ => path

/-- The path of an entry from a directory, found by their texts. A text with one part stays, and so
does one that the text of the directory does not begin. -/
def seenFrom (directory path : String) : String :=
  let directory := withoutDot directory
  let path := withoutDot (withoutDot path)
  if same directory "." || !path.toList.contains '/' then path
  else match Text.afterFront? directory.toList path.toList with
    | some ('/' :: rest) | some rest => String.ofList rest
    | none => path

/-- The path one step up, without slashes at its end. -/
def parent? (path : String) : Option String :=
  match trimParts (parts path) with
  | [] | [""] => none
  | [_] => some ""
  | ps =>
    match trimParts ps.dropLast with
    | [""] => some "/"
    | up => some (ofParts up)

/-- The last part, unless it is a step to the same or the upper directory. -/
def fileName? (path : String) : Option String :=
  match (trimParts (parts path)).getLast? with
  | none | some "" | some "." | some ".." => none
  | some name => some name

/-- A name cut at its last dot; a dot in front is part of the stem. -/
def splitExtension (name : String) : String × Option String :=
  let reversed := name.toList.reverse
  let extension := (reversed.takeWhile (· != '.')).reverse
  match (reversed.dropWhile (· != '.')).reverse.dropLast with
  | [] => (name, none)
  | stem => (String.ofList stem, some (String.ofList extension))

def extension? (path : String) : Option String :=
  (fileName? path).bind fun name => (splitExtension name).2

/-- The text of a path before its extension; what stands after the file name counts as part of
the extension. -/
def cutExtension (path : String) : String :=
  match fileName? path, (parts path).getLast? with
  | some name, some last =>
    if name = last then
      match (splitExtension name).2 with
      | some extension => String.ofList (path.toList.take (path.length - extension.length))
      | none => path
    else path
  | _, _ => path

/-- The path with another extension. Without its old one the path may end in a step upwards, which
takes none. -/
def withExtension (path extension : String) : String :=
  let cut := cutExtension path
  match fileName? cut with
  | none => cut
  | some name =>
    ofParts ((trimParts (parts cut)).dropLast ++ [(splitExtension name).1 ++ "." ++ extension])

end Path
end SchemaGen.Files
