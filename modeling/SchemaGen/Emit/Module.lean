import SchemaGen.Emit.Render
import SchemaGen.Text.LowerCase

namespace SchemaGen

open Text

/-- How a module is written. -/
structure ModuleStyle where
  ns : String := "z"
  importFrom : String := "zod"
  indent : String := "  "
  suffix : String := "Schema"
  types : Bool := false
  docs : Bool := false
  deriving DecidableEq, Inhabited

def endsWith (ending text : String) : Bool := ending.toList.isSuffixOf text.toList

/-- A name with the suffix, once; the test for it ignores case. -/
def suffixed (suffix name : String) : String :=
  if endsWith (lower suffix) (lower name) then name else name ++ suffix

/-- Comment text that neither closes the comment nor leaves its line. -/
def commentText (cs : List Char) : List Char :=
  replaceChar '\n' [' '] (replacePair '*' '/' ['*', '\\', '/'] cs)

/-- The name of the inferred type, which must differ from that of the schema. -/
def inferredName (struct schema : String) : String :=
  if struct = schema then struct ++ "Type" else struct

namespace ModuleStyle

variable (style : ModuleStyle)

def exportName (struct : String) : String := suffixed style.suffix struct

def opening : String :=
  "// GENERATED CODE - DO NOT MANUALLY MODIFY\nimport \x7b " ++ style.ns ++ " \x7d from '" ++
    style.importFrom ++ "';"

def annotationLine (note : String × String) : String :=
  style.indent ++ " * @" ++ note.1 ++ " " ++
    String.ofList (commentText note.2.toList)

/-- The comment over a field, one line for each annotation. -/
def docLines (f : Field) : List String :=
  if style.docs && !f.annotations.isEmpty then
    [style.indent ++ "/**"] ++ f.annotations.map style.annotationLine ++ [style.indent ++ " */"]
  else []

def property (f : Field) : String :=
  joinWith "\n" (style.docLines f ++
    [style.indent ++ f.type.renderNamed (qualifier style.ns) f.name])

/-- The exported constant of a struct, and its type if types are wanted. -/
def declaration (s : Schema) : String :=
  let name := style.exportName s.name
  let body :=
    if s.isEmpty then "\x7b\x7d"
    else "\x7b\n" ++ joinWith ",\n" (s.fields.map fun f => style.property f.2) ++ "\n\x7d"
  let schema := "export const " ++ name ++ " = " ++ style.ns ++ ".object(" ++ body ++ ");"
  if style.types then
    schema ++ "\nexport type " ++ inferredName s.name name ++ " = " ++ style.ns ++
      ".infer<typeof " ++ name ++ ">;"
  else schema

/-- The text of a module; there is none without structs. -/
def moduleText : List Schema → Option String
  | [] => none
  | s :: rest =>
    some (joinWith "\n\n" (style.opening :: (s :: rest).map style.declaration) ++ "\n")

end ModuleStyle
end SchemaGen
