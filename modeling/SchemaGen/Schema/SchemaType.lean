import SchemaGen.Schema.Constant

namespace SchemaGen

/-- A named, typed field with its annotations in order. -/
structure FieldOf (τ : Type) where
  name : String
  type : τ
  annotations : List (String × String)

/-- A field of an object stands under a key, which need not be its name. -/
inductive SchemaType where
  | string
  | number
  | boolean
  | void
  | any
  | unknown
  | array (element : SchemaType)
  | set (element : SchemaType)
  | map (key value : SchemaType)
  | object (fields : List (String × FieldOf SchemaType))
  | union (members : List SchemaType)
  | default (inner : SchemaType) (value : Constant)
  | optional (inner : SchemaType)
  deriving Inhabited

abbrev Field := FieldOf SchemaType

/-- Adds an annotation; a repeated name takes the new value. -/
def FieldOf.annotate {τ : Type} (f : FieldOf τ) (name value : String) : FieldOf τ :=
  { f with annotations := Table.insert name value f.annotations }

/-- Equality of tables whatever the order of their keys. -/
def sameAnnotations (a b : List (String × String)) : Bool :=
  a.length == b.length && a.all fun (k, v) => b.lookup k == some v

namespace SchemaType

/-- Leaves carry no data. -/
def isLeaf : SchemaType → Bool
  | string | number | boolean | void | any | unknown => true
  | _ => false

/-- The name of the kind of type. -/
def tag : SchemaType → String
  | string => "String"
  | number => "Number"
  | boolean => "Boolean"
  | void => "Void"
  | any => "Any"
  | unknown => "Unknown"
  | array _ => "Array"
  | set _ => "Set"
  | map _ _ => "Map"
  | object _ => "Object"
  | union _ => "Union"
  | default _ _ => "Default"
  | optional _ => "Optional"

/- Structural equality. Objects and annotations compare whatever the order of their keys. -/
mutual

def equal : SchemaType → SchemaType → Bool
  | string, string | number, number | boolean, boolean | void, void | any, any
  | unknown, unknown => true
  | array a, array b => equal a b
  | set a, set b => equal a b
  | map k v, map l w => equal k l && equal v w
  | object a, object b => a.length == b.length && fieldsIn a b
  | union a, union b => membersEqual a b
  | default a x, default b y => equal a b && x.equal y
  | optional a, optional b => equal a b
  | _, _ => false

/-- Every field stands in the other table under the same key. -/
def fieldsIn : List (String × FieldOf SchemaType) → List (String × FieldOf SchemaType) → Bool
  | [], _ => true
  | (key, ⟨name, type, annotations⟩) :: rest, other =>
    (match other.lookup key with
      | some g => name == g.name && equal type g.type && sameAnnotations annotations g.annotations
      | none => false) && fieldsIn rest other

def membersEqual : List SchemaType → List SchemaType → Bool
  | [], [] => true
  | a :: as, b :: bs => equal a b && membersEqual as bs
  | _, _ => false

end

/-- The members without those that equal an earlier one that was kept. -/
def distinct (members : List SchemaType) : List SchemaType :=
  members.foldl (fun kept m => if kept.any (·.equal m) then kept else kept ++ [m]) []

/-- The union of the distinct members. -/
def unionOf (members : List SchemaType) : SchemaType := union (distinct members)

end SchemaType

/-- A struct: its name and its fields in order, each under its key. -/
structure Schema where
  name : String
  fields : List (String × Field)
  deriving Inhabited

namespace Schema

def empty (name : String) : Schema := ⟨name, []⟩

/-- Sets a field under its name; a repeated name keeps its place. -/
def insert (s : Schema) (f : Field) : Schema :=
  { s with fields := Table.insert f.name f s.fields }

/-- Sets a field as `insert` does, and gives the one that it replaces. -/
def exchange (s : Schema) (f : Field) : Option Field × Schema :=
  let (old, fields) := Table.exchange f.name f s.fields
  (old, { s with fields })

def get? (s : Schema) (name : String) : Option Field := s.fields.lookup name

def size (s : Schema) : Nat := s.fields.length

def isEmpty (s : Schema) : Bool := s.fields.isEmpty

def keys (s : Schema) : List String := Table.keys s.fields

def toType (s : Schema) : SchemaType := .object s.fields

end Schema
end SchemaGen
