import SchemaGen.Schema.Decode

namespace SchemaGen

open Json

namespace Constant

/-- Whether no two of some keys are the same key of a map. -/
def keysDiffer (keys : List Constant) : Bool :=
  decide (keys.Pairwise fun a b => sameKey a b = false)

/- Whether the keys of each map in a value differ, at any depth. -/
mutual

def isRegular : Constant → Bool
  | list items => itemsRegular items
  | map pairs => keysDiffer (pairs.map (·.1)) && pairsRegular pairs
  | bool _ | number _ | string _ | identifier _ | null => true

def itemsRegular : List Constant → Bool
  | [] => true
  | item :: rest => isRegular item && itemsRegular rest

def pairsRegular : List (Constant × Constant) → Bool
  | [] => true
  | (key, value) :: rest => isRegular key && isRegular value && pairsRegular rest

end

/-- The key of a pair. -/
def keyUpTo (origin : Origin) (depth : Nat) : Json → Option Constant
  | .array [key, _] =>
    match depth with
    | 0 => none
    | depth + 1 => decodeUpTo origin depth key
  | _ => none

/-- Whether the keys of each map that is read differ, as they are read. -/
def regularUpTo (origin : Origin) : Nat → Json → Bool
  | 0, _ => true
  | depth + 1, j =>
    match variant? "kind" tags origin depth j with
    | some ⟨"List", some (.array items), origin⟩ =>
      match depth with
      | 0 => true
      | depth + 1 => items.all (regularUpTo origin depth)
    | some ⟨"Map", some (.array pairs), origin⟩ =>
      match depth with
      | 0 => true
      | depth + 1 =>
        keysDiffer (pairs.filterMap (keyUpTo origin depth)) && pairs.all fun
          | .array [key, value] =>
            match depth with
            | 0 => true
            | depth + 1 => regularUpTo origin depth key && regularUpTo origin depth value
          | _ => true
    | _ => true

end Constant

namespace SchemaType

/- Whether each field of an object in a type stands under its name, and the keys of each map in a
default differ, at any depth. -/
mutual

def isRegular : SchemaType → Bool
  | array t | set t | optional t => isRegular t
  | map k v => isRegular k && isRegular v
  | object fields => fieldsRegular fields
  | union members => membersRegular members
  | default inner value => isRegular inner && value.isRegular
  | string | number | boolean | void | any | unknown => true

def membersRegular : List SchemaType → Bool
  | [] => true
  | m :: rest => isRegular m && membersRegular rest

def fieldsRegular : List (String × FieldOf SchemaType) → Bool
  | [] => true
  | (key, ⟨name, type, _⟩) :: rest => name == key && isRegular type && fieldsRegular rest

end

/-- Whether a field stands under its name and its type passes a test. -/
def fieldRegularWith (type : Json → Bool) (key : String) (j : Json) : Bool :=
  (fieldParts? j).all fun (name, t, _) => text? name == some key && type t

/-- Whether the fields that stay in a table pass a test under their keys. -/
def fieldsRegularWith (field : String → Json → Bool) : Json → Bool
  | .object members => (Table.ofEntries members).all fun m => field m.1 m.2
  | _ => true

/-- Whether the fields that are read stand under their names, and the keys of the maps in defaults
differ, as they are read. -/
def regularUpTo (origin : Origin) : Nat → Json → Bool
  | 0, _ => true
  | depth + 1, j =>
    match variant? "type" tags origin depth j with
    | none => true
    | some v =>
      match v.name, v.content with
      | "Array", some t => regularUpTo v.origin depth t
      | "Set", some t => regularUpTo v.origin depth t
      | "Optional", some t => regularUpTo v.origin depth t
      | "Union", some (.array members) =>
        match depth with
        | 0 => true
        | depth + 1 => members.all (regularUpTo v.origin depth)
      | "Map", some content =>
        match depth with
        | 0 => true
        | depth + 1 => (pair? "key" "value" content).all fun (k, t) =>
          regularUpTo v.origin depth k && regularUpTo v.origin depth t
      | "Default", some content =>
        match depth with
        | 0 => true
        | depth + 1 => (pair? "inner" "value" content).all fun (t, value) =>
          regularUpTo v.origin depth t && Constant.regularUpTo v.origin depth value
      | "Object", some content =>
        match depth with
        | 0 => true
        | depth + 1 => fieldsRegularWith (fun key f =>
          match depth with
          | 0 => true
          | depth + 1 => fieldRegularWith (regularUpTo v.origin depth) key f) content
      | _, _ => true

end SchemaType

/-- Whether a field that is read within a depth stands under its name, and the like of its type. -/
def FieldOf.regularUpTo (depth : Nat) (key : String) (j : Json) : Bool :=
  match depth with
  | 0 => true
  | depth + 1 => SchemaType.fieldRegularWith (SchemaType.regularUpTo .direct depth) key j

namespace Schema

def isRegular (s : Schema) : Bool := s.toType.isRegular

/-- Whether the fields that are read for a struct stand under their names, and the keys of the maps
in their defaults differ, as they are read. -/
def isReadRegular (j : Json) : Bool :=
  (structParts? j).all fun (_, fields) =>
    SchemaType.fieldsRegularWith (FieldOf.regularUpTo (depthLimit - 2)) fields

end Schema

/-- Whether a value is read as a regular constant, type or struct, wherever it is read as one. -/
def Constant.isReadRegular (j : Json) : Bool := regularUpTo .direct depthLimit j

def SchemaType.isReadRegular (j : Json) : Bool := regularUpTo .direct depthLimit j

end SchemaGen
