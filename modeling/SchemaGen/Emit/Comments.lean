import SchemaGen.Emit.Module

namespace SchemaGen

open Text

/-- The lines of a text, without their breaks. -/
def linesOf (text : String) : List String := piecesOf '\n' text

/-- The lines outside of comments, and the lines of each comment. Of a comment that is open the
lines so far are given. -/
def cutComments (opening closing : String) :
    Option (List String) → List String → List String × List (List String)
  | none, [] => ([], [])
  | some comment, [] => ([], [comment])
  | none, line :: rest =>
    if line = opening then cutComments opening closing (some [line]) rest
    else
      let (kept, comments) := cutComments opening closing none rest
      (line :: kept, comments)
  | some comment, line :: rest =>
    if line = closing then
      let (kept, comments) := cutComments opening closing none rest
      (kept, (comment ++ [line]) :: comments)
    else cutComments opening closing (some (comment ++ [line])) rest

namespace ModuleStyle

variable (style : ModuleStyle)

def commentOpening : String := style.indent ++ "/**"

def commentClosing : String := style.indent ++ " */"

/-- The lines of a module outside of comments, and its comments. -/
def cut (text : String) : List String × List (List String) :=
  cutComments style.commentOpening style.commentClosing none (linesOf text)

/-- A module without its comments and without the lines of exported types. -/
def bare (text : String) : String :=
  joinWith "\n" ((style.cut text).1.filter fun line => !startsWith "export type " line)

/-- The comments of a module, each as it stands there. -/
def comments (text : String) : List String := (style.cut text).2.map (joinWith "\n")

/-- The same style with neither comments nor types. -/
def plain : ModuleStyle := { style with types := false, docs := false }

end ModuleStyle
end SchemaGen
