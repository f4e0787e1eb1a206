import SchemaGen.Json.Parser
import SchemaGen.Json.Printer
import SchemaGen.Schema.Encode

namespace SchemaGen

open Numeric

namespace Json

/- The containers around the innermost part of a value. -/
mutual

def height : Json → Nat
  | array items => itemsHeight items + 1
  | object members => membersHeight members + 1
  | null | bool _ | natural _ | number _ | string _ | invalid => 0

def itemsHeight : List Json → Nat
  | [] => 0
  | item :: rest => max (height item) (itemsHeight rest)

def membersHeight : List (String × Json) → Nat
  | [] => 0
  | (_, value) :: rest => max (height value) (membersHeight rest)

end

/-- The number that a value is taken for. -/
def asNumber? : Json → Option Binary64
  | number n => some n
  | natural k => some (.ofNat k)
  | _ => none

/-- The number that a number is read back as from its own text, if as any. -/
def rereadNumber? (n : Binary64) : Option Binary64 :=
  (parse? (ofNumberValue n).print).bind asNumber?

end Json

namespace Constant

/- The numbers of a value in order. -/
mutual

def numbers : Constant → List Binary64
  | number n => [n]
  | list items => itemNumbers items
  | map pairs => pairNumbers pairs
  | _ => []

def itemNumbers : List Constant → List Binary64
  | [] => []
  | item :: rest => numbers item ++ itemNumbers rest

def pairNumbers : List (Constant × Constant) → List Binary64
  | [] => []
  | (key, value) :: rest => numbers key ++ numbers value ++ pairNumbers rest

end

/- A value with another number for each of its numbers, if each has one. -/
mutual

def mapNumbers? (f : Binary64 → Option Binary64) : Constant → Option Constant
  | number n => number <$> f n
  | list items => list <$> mapItems? f items
  | map pairs => map <$> mapPairs? f pairs
  | bool b => some (bool b)
  | string s => some (string s)
  | identifier name => some (identifier name)
  | null => some null

def mapItems? (f : Binary64 → Option Binary64) : List Constant → Option (List Constant)
  | [] => some []
  | item :: rest => do pure ((← mapNumbers? f item) :: (← mapItems? f rest))

def mapPairs? (f : Binary64 → Option Binary64) :
    List (Constant × Constant) → Option (List (Constant × Constant))
  | [] => some []
  | (key, value) :: rest => do
    pure ((← mapNumbers? f key, ← mapNumbers? f value) :: (← mapPairs? f rest))

end

/- The names of constants in a value. -/
mutual

def names : Constant → List String
  | identifier name => [name]
  | list items => itemNames items
  | map pairs => pairNames pairs
  | bool _ | number _ | string _ | null => []

def itemNames : List Constant → List String
  | [] => []
  | item :: rest => names item ++ itemNames rest

def pairNames : List (Constant × Constant) → List String
  | [] => []
  | (key, value) :: rest => names key ++ names value ++ pairNames rest

end

/- The keys of all maps in a value, at any depth. -/
mutual

def keys : Constant → List Constant
  | list items => itemKeys items
  | map pairs => pairKeys pairs
  | bool _ | number _ | string _ | identifier _ | null => []

def itemKeys : List Constant → List Constant
  | [] => []
  | item :: rest => keys item ++ itemKeys rest

def pairKeys : List (Constant × Constant) → List Constant
  | [] => []
  | (key, value) :: rest => key :: (keys key ++ keys value ++ pairKeys rest)

end

/- The values in a value, itself and those at any depth. -/
mutual

def parts : Constant → List Constant
  | list items => list items :: itemParts items
  | map pairs => map pairs :: pairParts pairs
  | bool b => [bool b]
  | number n => [number n]
  | string text => [string text]
  | identifier name => [identifier name]
  | null => [null]

def itemParts : List Constant → List Constant
  | [] => []
  | item :: rest => parts item ++ itemParts rest

def pairParts : List (Constant × Constant) → List Constant
  | [] => []
  | (key, value) :: rest => parts key ++ parts value ++ pairParts rest

end

/-- A finite number below zero. -/
def isNegative : Constant → Bool
  | number (.finite negative magnitude) => negative && magnitude.val != 0
  | _ => false

end Constant

namespace SchemaType

/- The numbers of a type in order; only defaults hold any. -/
mutual

def numbers : SchemaType → List Binary64
  | array t | set t | optional t => numbers t
  | map k v => numbers k ++ numbers v
  | object fields => fieldNumbers fields
  | union members => memberNumbers members
  | default inner value => numbers inner ++ value.numbers
  | string | number | boolean | void | any | unknown => []

def memberNumbers : List SchemaType → List Binary64
  | [] => []
  | m :: rest => numbers m ++ memberNumbers rest

def fieldNumbers : List (String × FieldOf SchemaType) → List Binary64
  | [] => []
  | (_, ⟨_, type, _⟩) :: rest => numbers type ++ fieldNumbers rest

end

/- A type with another number for each of its numbers, if each has one. -/
mutual

def mapNumbers? (f : Binary64 → Option Binary64) : SchemaType → Option SchemaType
  | array t => array <$> mapNumbers? f t
  | set t => set <$> mapNumbers? f t
  | optional t => optional <$> mapNumbers? f t
  | map k v => do pure (map (← mapNumbers? f k) (← mapNumbers? f v))
  | object fields => object <$> mapFields? f fields
  | union members => union <$> mapMembers? f members
  | default inner value => do pure (default (← mapNumbers? f inner) (← value.mapNumbers? f))
  | string => some string
  | number => some number
  | boolean => some boolean
  | void => some void
  | any => some any
  | unknown => some unknown

def mapMembers? (f : Binary64 → Option Binary64) : List SchemaType → Option (List SchemaType)
  | [] => some []
  | m :: rest => do pure ((← mapNumbers? f m) :: (← mapMembers? f rest))

def mapFields? (f : Binary64 → Option Binary64) :
    List (String × FieldOf SchemaType) → Option (List (String × FieldOf SchemaType))
  | [] => some []
  | (key, ⟨name, type, annotations⟩) :: rest => do
    pure ((key, ⟨name, ← mapNumbers? f type, annotations⟩) :: (← mapFields? f rest))

end

/- Whether an optional type stands in a type, at any depth. -/
mutual

def hasOptional : SchemaType → Bool
  | optional _ => true
  | array t | set t => hasOptional t
  | map k v => hasOptional k || hasOptional v
  | object fields => fieldsHaveOptional fields
  | union members => membersHaveOptional members
  | default inner _ => hasOptional inner
  | string | number | boolean | void | any | unknown => false

def membersHaveOptional : List SchemaType → Bool
  | [] => false
  | m :: rest => hasOptional m || membersHaveOptional rest

def fieldsHaveOptional : List (String × FieldOf SchemaType) → Bool
  | [] => false
  | (_, ⟨_, type, _⟩) :: rest => hasOptional type || fieldsHaveOptional rest

end

/- Whether every table has each of its keys once. -/
mutual

def isKeyed : SchemaType → Bool
  | array t | set t | optional t => isKeyed t
  | map k v => isKeyed k && isKeyed v
  | object fields => decide (Table.keys fields).Nodup && fieldsKeyed fields
  | union members => membersKeyed members
  | default inner _ => isKeyed inner
  | string | number | boolean | void | any | unknown => true

def membersKeyed : List SchemaType → Bool
  | [] => true
  | m :: rest => isKeyed m && membersKeyed rest

def fieldsKeyed : List (String × FieldOf SchemaType) → Bool
  | [] => true
  | (_, ⟨_, type, annotations⟩) :: rest =>
    isKeyed type && decide (Table.keys annotations).Nodup && fieldsKeyed rest

end
end SchemaType

namespace FieldOf

def numbers (f : Field) : List Binary64 := f.type.numbers

def isKeyed (f : Field) : Bool := f.type.isKeyed && decide (Table.keys f.annotations).Nodup

def mapNumbers? (f : Binary64 → Option Binary64) (field : Field) : Option Field :=
  (fun t => { field with type := t }) <$> field.type.mapNumbers? f

end FieldOf

namespace SchemaType

theorem membersKeyed_eq_all (members : List SchemaType) :
    membersKeyed members = members.all isKeyed := by
  induction members with
  | nil => rfl
  | cons m members ih => rw [membersKeyed, ih, List.all_cons]

theorem fieldsKeyed_eq_all (fields : List (String × Field)) :
    fieldsKeyed fields = fields.all fun e => e.2.isKeyed := by
  induction fields with
  | nil => rfl
  | cons e fields ih => rw [fieldsKeyed, ih, List.all_cons, FieldOf.isKeyed]

end SchemaType

namespace Schema

def numbers (s : Schema) : List Binary64 := SchemaType.fieldNumbers s.fields

def isKeyed (s : Schema) : Bool := s.toType.isKeyed

def mapNumbers? (f : Binary64 → Option Binary64) (s : Schema) : Option Schema :=
  mk s.name <$> SchemaType.mapFields? f s.fields

end Schema
end SchemaGen
