import SchemaGen.Schema.SchemaType

namespace SchemaGen

open Text

/-- An object key: bare if it is an identifier, else quoted. -/
def objectKey (name : String) : String := if isBareName name then name else quote name

/-- What stands before every constructor name of a namespace. -/
def qualifier (ns : String) : String := if ns.isEmpty then "" else ns ++ "."

def startsWith (start text : String) : Bool := start.toList.isPrefixOf text.toList

namespace SchemaType

/-- The default of a string is its text quoted; a number or truth value by itself stands bare. -/
def defaultText (inner : SchemaType) (value : Constant) : String :=
  match inner, value with
  | string, value => quote value.text
  | number, .number n => Numeric.Binary64.text n
  | number, .bool b => Constant.boolText b
  | boolean, .number n => Numeric.Binary64.text n
  | boolean, .bool b => Constant.boolText b
  | _, value => value.literal

def unionText (p : String) (members : List String) : String :=
  p ++ "union([" ++ joinWith ", " members ++ "])"

/-- An object call without its qualifier. -/
def objectText (properties : List String) : String :=
  if properties.isEmpty then "object(\x7b\x7d)"
  else "object(\x7b " ++ joinWith ", " properties ++ " \x7d)"

/-- The element of an array. A text that already starts as an object call takes the qualifier,
also where it has one. -/
def elementText (p : String) (element : SchemaType) (rendered : String) : String :=
  match element with
  | object _ => rendered
  | element =>
    if !element.isLeaf && startsWith "object" rendered then p ++ rendered else rendered

/-- The element of an array over a union: the only member, or a union again. -/
def unionElementText (p : String) (members : List String) : String :=
  match members with
  | [] => elementText p (union []) (unionText p [])
  | [only] => only
  | members => unionText p members

/- The constructor call of a type, of each member and of each property. Of members with one text
the first stays. -/
mutual

def render (p : String) : SchemaType → String
  | string => p ++ "string()"
  | number => p ++ "number()"
  | boolean => p ++ "boolean()"
  | void => p ++ "void()"
  | any => p ++ "any()"
  | unknown => p ++ "unknown()"
  | array (union members) =>
    p ++ "array(" ++ unionElementText p (renderMembers p members).eraseDups ++ ")"
  | array element => p ++ "array(" ++ elementText p element (render p element) ++ ")"
  | set element => p ++ "set(" ++ render p element ++ ")"
  | map key value => p ++ "record(" ++ render p key ++ ", " ++ render p value ++ ")"
  | object fields => p ++ objectText (renderProperties p fields)
  | union members => unionText p (renderMembers p members).eraseDups
  | default inner value => render p inner ++ ".default(" ++ defaultText inner value ++ ")"
  | optional inner => render p inner ++ ".optional()"

def renderMembers (p : String) : List SchemaType → List String
  | [] => []
  | m :: rest => render p m :: renderMembers p rest

def renderProperties (p : String) : List (String × FieldOf SchemaType) → List String
  | [] => []
  | (key, ⟨_, type, _⟩) :: rest =>
    (objectKey key ++ ": " ++ render p type) :: renderProperties p rest

end

/-- The form embedded as an element: the bare name of a leaf, and an object without qualifier. -/
def renderBare (p : String) : SchemaType → String
  | string => "string"
  | number => "number"
  | boolean => "boolean"
  | void => "void"
  | any => "any"
  | unknown => "unknown"
  | object fields => objectText (renderProperties p fields)
  | t => render p t

/-- A property with a given name. -/
def renderNamed (p name : String) (t : SchemaType) : String :=
  objectKey name ++ ": " ++ render p t

end SchemaType
end SchemaGen
