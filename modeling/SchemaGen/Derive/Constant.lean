import SchemaGen.Idl.Document
import SchemaGen.Schema.SchemaType

namespace SchemaGen

open Idl Numeric

namespace Idl.ConstExpr

/- The value of a constant expression. Every literal but a truth value is read as a number, so
text that is no number is NaN; names are not resolved. -/
mutual

def value : ConstExpr → Constant
  | .bool b => .bool b
  | .int text | .double text | .string text => .number (Binary64.ofText text)
  | .list items => .list (values items)
  | .map entries => .ofEntries (entryValues entries)
  | .identifier name => .identifier name

def values : List ConstExpr → List Constant
  | [] => []
  | item :: rest => value item :: values rest

def entryValues : List (ConstExpr × ConstExpr) → List (Constant × Constant)
  | [] => []
  | (k, v) :: rest => (value k, value v) :: entryValues rest

end

theorem values_eq_map (items : List ConstExpr) : values items = items.map value := by
  induction items with
  | nil => rfl
  | cons e items ih => rw [values, ih, List.map_cons]

theorem entryValues_eq_map (entries : List (ConstExpr × ConstExpr)) :
    entryValues entries = entries.map fun e => (e.1.value, e.2.value) := by
  induction entries with
  | nil => rfl
  | cons e entries ih => rw [entryValues, ih, List.map_cons]

end Idl.ConstExpr

/-- The schema of a base type: all numbers are one, and so are all strings. -/
def schemaOfBase : BaseType → SchemaType
  | .bool => .boolean
  | .byte | .i8 | .i16 | .i32 | .i64 | .double => .number
  | .string | .binary => .string
  | .void => .void

/-- The schema of a field type; a named type is unknown. -/
def schemaOf : FieldType → SchemaType
  | .base b => schemaOfBase b
  | .list element => .array (schemaOf element)
  | .set element => .set (schemaOf element)
  | .map key value => .map (schemaOf key) (schemaOf value)
  | .named _ => .unknown

end SchemaGen
