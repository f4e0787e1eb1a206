import SchemaGen.Emit.Module

namespace SchemaGen

open Text

/-- The names that stand after a keyword at the start of a line. -/
def declaredNames (keyword : String) (text : List Char) : List String :=
  (splitOn '\n' text).filterMap fun line =>
    (afterFront? keyword.toList line).map fun rest =>
      String.ofList (rest.takeWhile isIdentifierRest)

/-- The exported constants of a module. -/
def constNames (text : String) : List String := declaredNames "export const " text.toList

/-- The exported types of a module. -/
def typeNames (text : String) : List String := declaredNames "export type " text.toList

namespace ModuleStyle

variable (style : ModuleStyle)

/-- The namespace and the import stand on one line, and lines are indented by blanks. -/
def isTidy : Bool :=
  style.ns.toList.all (· != '\n') && style.importFrom.toList.all (· != '\n') &&
    style.indent.toList.all fun c => c == ' ' || c == '\t'

/-- A name that takes no suffix, because it has it in some case. -/
def hasSuffix (name : String) : Bool := endsWith (lower style.suffix) (lower name)

end ModuleStyle
end SchemaGen
