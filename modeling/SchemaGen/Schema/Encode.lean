import SchemaGen.Json.Value
import SchemaGen.Schema.SchemaType

namespace SchemaGen

namespace Json

/-- A variant under a key that tells its name. -/
def variant (key name : String) : Option Json → Json
  | none => .object [(key, .string name)]
  | some content => .object [(key, .string name), ("value", content)]

/-- A number; one that is not finite is written as nothing. -/
def ofNumberValue (n : Numeric.Binary64) : Json := if n.isFinite then .number n else .null

end Json

namespace Constant

mutual

def encode : Constant → Json
  | bool b => .variant "kind" "Bool" (some (.bool b))
  | number n => .variant "kind" "Number" (some (.ofNumberValue n))
  | string s => .variant "kind" "String" (some (.string s))
  | list items => .variant "kind" "List" (some (.array (encodeItems items)))
  | map pairs => .variant "kind" "Map" (some (.array (encodePairs pairs)))
  | identifier name => .variant "kind" "Identifier" (some (.string name))
  | null => .variant "kind" "Null" none

def encodeItems : List Constant → List Json
  | [] => []
  | item :: rest => encode item :: encodeItems rest

def encodePairs : List (Constant × Constant) → List Json
  | [] => []
  | (key, value) :: rest => .array [encode key, encode value] :: encodePairs rest

end
end Constant

/-- The members of a field; annotations are left out when there are none. -/
def fieldMembers (name : String) (type : Json) (annotations : List (String × String)) :
    List (String × Json) :=
  [("name", .string name), ("type", type)] ++
    if annotations.isEmpty then []
    else [("annotations", .object (annotations.map fun a => (a.1, .string a.2)))]

namespace SchemaType

mutual

def encode : SchemaType → Json
  | array t => .variant "type" "Array" (some (encode t))
  | set t => .variant "type" "Set" (some (encode t))
  | map k v => .variant "type" "Map" (some (.object [("key", encode k), ("value", encode v)]))
  | object fields => .variant "type" "Object" (some (.object (encodeFields fields)))
  | union members => .variant "type" "Union" (some (.array (encodeMembers members)))
  | default inner value =>
    .variant "type" "Default" (some (.object [("inner", encode inner), ("value", value.encode)]))
  | optional inner => .variant "type" "Optional" (some (encode inner))
  | string => .variant "type" "String" none
  | number => .variant "type" "Number" none
  | boolean => .variant "type" "Boolean" none
  | void => .variant "type" "Void" none
  | any => .variant "type" "Any" none
  | unknown => .variant "type" "Unknown" none

def encodeMembers : List SchemaType → List Json
  | [] => []
  | m :: rest => encode m :: encodeMembers rest

def encodeFields : List (String × FieldOf SchemaType) → List (String × Json)
  | [] => []
  | (key, ⟨name, type, annotations⟩) :: rest =>
    (key, .object (fieldMembers name (encode type) annotations)) :: encodeFields rest

end
end SchemaType

def FieldOf.encode (f : Field) : Json := .object (fieldMembers f.name f.type.encode f.annotations)

def Schema.encode (s : Schema) : Json :=
  .object [("name", .string s.name), ("fields", .object (SchemaType.encodeFields s.fields))]

end SchemaGen
