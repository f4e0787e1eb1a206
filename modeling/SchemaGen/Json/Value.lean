import SchemaGen.Numeric.Binary64

namespace SchemaGen

/-- A number that is written as a natural of 64 bits is told apart from the others. `invalid` is
what is well formed and stands for nothing: a number beyond the range, a text with half a surrogate
pair, or an object with such a key. -/
inductive Json where
  | null
  | bool (value : Bool)
  | natural (value : Nat)
  | number (value : Numeric.Binary64)
  | string (text : String)
  | array (items : List Json)
  | object (members : List (String × Json))
  | invalid
  deriving Inhabited

end SchemaGen
