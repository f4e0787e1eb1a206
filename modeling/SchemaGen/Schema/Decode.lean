import SchemaGen.Json.Value
import SchemaGen.Schema.SchemaType

/-!
Schemas from JSON. Members may stand in any order and unknown ones do not count; a variant, a
field or a struct may also be the array of its members. A content that stands before the name of
its variant is taken as a whole first, so all of it has to be sound; inside of it the array of a
variant may tell the number of the variant for its name. Every decoder has a bound on the
containers inside one another.
-/

namespace SchemaGen

namespace Json

/-- The deepest nesting that is read. -/
def depthLimit : Nat := 127

mutual

/-- Whether a value is free of invalid ones and within a depth. -/
def isSound : Nat → Json → Bool
  | _, null | _, bool _ | _, natural _ | _, number _ | _, string _ => true
  | _, invalid => false
  | 0, array _ | 0, object _ => false
  | depth + 1, array items => areSound depth items
  | depth + 1, object members => membersSound depth members

def areSound : Nat → List Json → Bool
  | _, [] => true
  | depth, item :: rest => isSound depth item && areSound depth rest

def membersSound : Nat → List (String × Json) → Bool
  | _, [] => true
  | depth, (_, value) :: rest => isSound depth value && membersSound depth rest

end

/-- The members that have one of some keys. -/
def relevant (keys : List String) (members : List (String × Json)) : List (String × Json) :=
  members.filter fun m => keys.contains m.1

/-- The only member of a key; none is no error, two are. -/
def unique? (key : String) (members : List (String × Json)) : Option (Option Json) :=
  match relevant [key] members with
  | [] => some none
  | [m] => some (some m.2)
  | _ => none

/-- Where a value is read: from the text itself, or from a content that was taken whole. -/
inductive Origin where
  | direct
  | taken
  deriving DecidableEq

/-- The name of a variant, which may also be the key of an object around nothing. A content that
was taken whole may hold an empty object there. -/
def variantName? (origin : Origin) (depth : Nat) : Json → Option String
  | string name => some name
  | object [(name, null)] => if depth = 0 then none else some name
  | object [(name, object [])] => if origin = .taken ∧ depth ≠ 0 then some name else none
  | _ => none

/-- The name of a variant in front of its content, or its number among `names`. -/
def leadingName? (names : List String) (origin : Origin) : Json → Option String
  | string name => some name
  | natural n => if origin = .taken then names[n]? else none
  | _ => none

/-- A variant taken apart: its name, its content if there is one, and where that is read. -/
structure Variant where
  name : String
  content : Option Json
  origin : Origin

/-- The variant of `names` that a value stands for, under the key that tells its name. -/
def variant? (key : String) (names : List String) (origin : Origin) (depth : Nat) :
    Json → Option Variant
  | array [name, content] =>
    (leadingName? names origin name).map fun name => ⟨name, some content, origin⟩
  | object members =>
    match relevant [key, "value"] members with
    | [(k, name)] =>
      if k = key then (variantName? origin depth name).map fun name => ⟨name, none, origin⟩
      else none
    | [(k, a), (l, b)] =>
      if k = l then none
      else if k = key then
        (variantName? origin depth a).map fun name => ⟨name, some b, origin⟩
      else if isSound depth a then
        (variantName? origin depth b).map fun name => ⟨name, some a, .taken⟩
      else none
    | _ => none
  | _ => none

def text? : Json → Option String
  | string s => some s
  | _ => none

/-- A content of nothing: none at all or a null. -/
def isNothing : Option Json → Bool
  | none | some null => true
  | _ => false

/-- A table of texts; of a repeated key the last value stays, in the first place. -/
def texts? : Json → Option (List (String × String))
  | object members => do
    let entries ← members.mapM fun m => (text? m.2).map (m.1, ·)
    pure (Table.ofEntries entries)
  | _ => none

/-- Two values under two keys. -/
def pair? (first second : String) : Json → Option (Json × Json)
  | object members => do
    let a ← unique? first members
    let b ← unique? second members
    pure (← a, ← b)
  | _ => none

/-- The parts of a field: its name, its type and its annotations. -/
def fieldParts? : Json → Option (Json × Json × Option Json)
  | array [name, type] => some (name, type, none)
  | array [name, type, annotations] => some (name, type, some annotations)
  | object members => do
    let name ← unique? "name" members
    let type ← unique? "type" members
    let annotations ← unique? "annotations" members
    pure (← name, ← type, annotations)
  | _ => none

end Json

open Json

namespace Constant

/-- The names of the variants in order. -/
def tags : List String := ["Bool", "Number", "String", "List", "Map", "Identifier", "Null"]

def decodeUpTo (origin : Origin) : Nat → Json → Option Constant
  | 0, _ => none
  | depth + 1, j => do
    let v ← variant? "kind" tags origin depth j
    match v.name, v.content with
    | "Bool", some (.bool b) => some (bool b)
    | "Number", some (.number n) => some (number n)
    | "Number", some (.natural n) => some (number (.ofNat n))
    | "String", some (.string s) => some (string s)
    | "Identifier", some (.string s) => some (identifier s)
    | "Null", content => if isNothing content then some null else none
    | "List", some (.array items) =>
      match depth with
      | 0 => none
      | depth + 1 => list <$> items.mapM (decodeUpTo v.origin depth)
    | "Map", some (.array pairs) =>
      match depth with
      | 0 => none
      | depth + 1 => map <$> pairs.mapM fun
        | .array [key, value] =>
          match depth with
          | 0 => none
          | depth + 1 => do
            pure (← decodeUpTo v.origin depth key, ← decodeUpTo v.origin depth value)
        | _ => none
    | _, _ => none

def decode? (j : Json) : Option Constant := decodeUpTo .direct depthLimit j

end Constant

namespace SchemaType

/-- A field, given how to read its type. -/
def fieldWith? (type : Json → Option SchemaType) (depth : Nat) (j : Json) : Option Field := do
  let (name, t, annotations) ← fieldParts? j
  let notes ← match annotations with
    | none => some []
    | some a => if depth = 0 then none else texts? a
  pure ⟨← text? name, ← type t, notes⟩

/-- A table of fields, given how to read each. -/
def fieldsWith? (field : Json → Option Field) : Json → Option (List (String × Field))
  | .object members => do
    let entries ← members.mapM fun m => (field m.2).map (m.1, ·)
    pure (Table.ofEntries entries)
  | _ => none

/-- The names of the variants in order. -/
def tags : List String :=
  ["String", "Number", "Boolean", "Void", "Any", "Unknown", "Array", "Set", "Map", "Object",
    "Union", "Default", "Optional"]

def decodeUpTo (origin : Origin) : Nat → Json → Option SchemaType
  | 0, _ => none
  | depth + 1, j => do
    let v ← variant? "type" tags origin depth j
    let leaf (t : SchemaType) : Option SchemaType := if isNothing v.content then some t else none
    match v.name, v.content with
    | "String", _ => leaf string
    | "Number", _ => leaf number
    | "Boolean", _ => leaf boolean
    | "Void", _ => leaf void
    | "Any", _ => leaf any
    | "Unknown", _ => leaf unknown
    | "Array", some t => array <$> decodeUpTo v.origin depth t
    | "Set", some t => set <$> decodeUpTo v.origin depth t
    | "Optional", some t => optional <$> decodeUpTo v.origin depth t
    | "Union", some (.array members) =>
      match depth with
      | 0 => none
      | depth + 1 => union <$> members.mapM (decodeUpTo v.origin depth)
    | "Map", some content =>
      match depth with
      | 0 => none
      | depth + 1 => do
        let (k, t) ← pair? "key" "value" content
        pure (map (← decodeUpTo v.origin depth k) (← decodeUpTo v.origin depth t))
    | "Default", some content =>
      match depth with
      | 0 => none
      | depth + 1 => do
        let (t, value) ← pair? "inner" "value" content
        pure (default (← decodeUpTo v.origin depth t)
          (← Constant.decodeUpTo v.origin depth value))
    | "Object", some content =>
      match depth with
      | 0 => none
      | depth + 1 => object <$> fieldsWith? (fun f =>
        match depth with
        | 0 => none
        | depth + 1 => fieldWith? (decodeUpTo v.origin depth) depth f) content
    | _, _ => none

def decode? (j : Json) : Option SchemaType := decodeUpTo .direct depthLimit j

end SchemaType

/-- A field within a depth. -/
def FieldOf.decodeUpTo (depth : Nat) (j : Json) : Option Field :=
  match depth with
  | 0 => none
  | depth + 1 => SchemaType.fieldWith? (SchemaType.decodeUpTo .direct depth) depth j

def FieldOf.decode? (j : Json) : Option Field := FieldOf.decodeUpTo depthLimit j

/-- The name and the fields of a struct. -/
def structParts? : Json → Option (Json × Json)
  | .array [name, fields] => some (name, fields)
  | j => pair? "name" "fields" j

def Schema.decode? (j : Json) : Option Schema := do
  let (name, fields) ← structParts? j
  pure ⟨← text? name, ← SchemaType.fieldsWith? (FieldOf.decodeUpTo (depthLimit - 2)) fields⟩

end SchemaGen
