import SchemaGen.Numeric.Literal
import SchemaGen.Text.Quoted
import SchemaGen.Table

namespace SchemaGen

open Numeric Text

/-- The pairs of a map are in order. -/
inductive Constant where
  | bool (value : Bool)
  | number (value : Binary64)
  | string (text : String)
  | list (items : List Constant)
  | map (pairs : List (Constant × Constant))
  | identifier (name : String)
  | null
  deriving Inhabited

namespace Constant

/- Comparison of the same shape, item by item and pair by pair, with a comparison of numbers. -/
mutual

def eqBy (same : Binary64 → Binary64 → Bool) : Constant → Constant → Bool
  | bool a, bool b => a == b
  | number a, number b => same a b
  | string a, string b => a == b
  | list a, list b => itemsEqBy same a b
  | map a, map b => pairsEqBy same a b
  | identifier a, identifier b => a == b
  | null, null => true
  | _, _ => false

def itemsEqBy (same : Binary64 → Binary64 → Bool) : List Constant → List Constant → Bool
  | [], [] => true
  | a :: as, b :: bs => eqBy same a b && itemsEqBy same as bs
  | _, _ => false

def pairsEqBy (same : Binary64 → Binary64 → Bool) :
    List (Constant × Constant) → List (Constant × Constant) → Bool
  | [], [] => true
  | (a, x) :: as, (b, y) :: bs => eqBy same a b && eqBy same x y && pairsEqBy same as bs
  | _, _ => false

end

/-- Equality with numbers compared numerically, so that NaN differs from itself. -/
def equal (a b : Constant) : Bool := eqBy Binary64.equal a b

/-- Equality of map keys: as `equal`, but NaN is the same as NaN. -/
def sameKey (a b : Constant) : Bool :=
  eqBy (fun x y => x.equal y || (x.isNaN && y.isNaN)) a b

/-- The map filled with entries in order. -/
def ofEntries (entries : List (Constant × Constant)) : Constant :=
  map (Table.ofEntriesBy sameKey entries)

def boolText (b : Bool) : String := if b then "true" else "false"

/-- A key of an object literal. A name stands bare, a finite number as its text, and what is
neither a name nor a string nor a number is computed from its literal. -/
def keyText (key : Constant) (literal : String) : String :=
  let computed := "[" ++ literal ++ "]"
  match key with
  | string text => if isBareName text then text else quote text
  | identifier name => if isBareName name then name else computed
  | number n => if n.isFinite then Binary64.text n else computed
  | _ => computed

/- The literal of a value in the emitted language. -/
mutual

def literal : Constant → String
  | bool b => boolText b
  | number n => Binary64.text n
  | string text => quote text
  | list items => "[" ++ joinWith ", " (literals items) ++ "]"
  | map [] => "\x7b\x7d"
  | map pairs => "\x7b " ++ joinWith ", " (entryLiterals pairs) ++ " \x7d"
  | identifier name => name
  | null => "null"

def literals : List Constant → List String
  | [] => []
  | item :: rest => literal item :: literals rest

def entryLiterals : List (Constant × Constant) → List String
  | [] => []
  | (k, v) :: rest => (keyText k (literal k) ++ ": " ++ literal v) :: entryLiterals rest

end

/- The plain text of a value, without quotes; a map has only its literal. -/
mutual

def text : Constant → String
  | bool b => boolText b
  | number n => Binary64.text n
  | string s => s
  | list items => joinWith "," (texts items)
  | map pairs => literal (map pairs)
  | identifier name => name
  | null => "null"

def texts : List Constant → List String
  | [] => []
  | item :: rest => text item :: texts rest

end

def propertyKey (key : Constant) : String := keyText key key.literal

end Constant
end SchemaGen
