namespace SchemaGen.Toml

/-- How a table came to be: under a header of its own, on the way to another header, by a dotted
key, or in braces. One in braces is closed, and one with a header is to dotted keys. -/
inductive Form where
  | header
  | implied
  | dotted
  | braces
  deriving DecidableEq, Repr

inductive Value where
  | text (content : String)
  | truth (value : Bool)
  | number (inRange : Bool)
  | moment
  | array (items : List Value)
  | table (form : Form) (entries : List (String × Value))
  /-- The tables of a repeated header, the last one first. -/
  | tables (items : List (List (String × Value)))
  deriving Inhabited

abbrev Table := List (String × Value)

namespace Value

/- Whether all numbers in a value, in a list of them, in a table or in several are in range. -/
mutual

def inRange : Value → Bool
  | number inRange => inRange
  | array items => allInRange items
  | table _ entries => entriesInRange entries
  | tables items => tablesInRange items
  | _ => true

def allInRange : List Value → Bool
  | [] => true
  | item :: rest => inRange item && allInRange rest

def entriesInRange : List (String × Value) → Bool
  | [] => true
  | (_, value) :: rest => inRange value && entriesInRange rest

def tablesInRange : List (List (String × Value)) → Bool
  | [] => true
  | entries :: rest => entriesInRange entries && tablesInRange rest

end

end Value
end SchemaGen.Toml
