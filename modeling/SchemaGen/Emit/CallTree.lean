import SchemaGen.Emit.Render

namespace SchemaGen

/-- The kinds of types that carry no data. -/
inductive Leaf where
  | string
  | number
  | boolean
  | void
  | any
  | unknown
  deriving DecidableEq, Repr

def Leaf.name : Leaf → String
  | string => "string"
  | number => "number"
  | boolean => "boolean"
  | void => "void"
  | any => "any"
  | unknown => "unknown"

/-- Nested constructor calls: what the text of a type says. A default stands by the text of its
literal. -/
inductive CallTree where
  | leaf (kind : Leaf)
  | array (element : CallTree)
  | set (element : CallTree)
  | map (key value : CallTree)
  | object (properties : List (String × CallTree))
  | union (members : List CallTree)
  | default (inner : CallTree) (literal : String)
  | optional (inner : CallTree)
  deriving Inhabited

namespace CallTree

/- Whether two trees are the same. -/
mutual

def same : CallTree → CallTree → Bool
  | leaf k, leaf l => k == l
  | array a, array b => same a b
  | set a, set b => same a b
  | map k v, map l w => same k l && same v w
  | object ps, object qs => sameProperties ps qs
  | union ms, union ns => sameMembers ms ns
  | default a s, default b t => same a b && s == t
  | optional a, optional b => same a b
  | _, _ => false

def sameProperties : List (String × CallTree) → List (String × CallTree) → Bool
  | [], [] => true
  | (k, a) :: ps, (l, b) :: qs => k == l && same a b && sameProperties ps qs
  | _, _ => false

def sameMembers : List CallTree → List CallTree → Bool
  | [], [] => true
  | a :: ms, b :: ns => same a b && sameMembers ms ns
  | _, _ => false

end

mutual

theorem same_iff (t u : CallTree) : same t u = true ↔ t = u := by
  match t with
  | leaf k => cases u <;> simp [same]
  | array a => cases u <;> simp [same, same_iff a]
  | set a => cases u <;> simp [same, same_iff a]
  | map k v => cases u <;> simp [same, same_iff k, same_iff v]
  | object ps => cases u <;> simp [same, sameProperties_iff ps]
  | union ms => cases u <;> simp [same, sameMembers_iff ms]
  | default a s => cases u <;> simp [same, same_iff a]
  | optional a => cases u <;> simp [same, same_iff a]

theorem sameProperties_iff (ps qs : List (String × CallTree)) :
    sameProperties ps qs = true ↔ ps = qs := by
  match ps, qs with
  | [], [] | [], _ :: _ | _ :: _, [] => simp [sameProperties]
  | (k, a) :: ps, (l, b) :: qs =>
    simp [sameProperties, same_iff a, sameProperties_iff ps]

theorem sameMembers_iff (ms ns : List CallTree) : sameMembers ms ns = true ↔ ms = ns := by
  match ms, ns with
  | [], [] | [], _ :: _ | _ :: _, [] => simp [sameMembers]
  | a :: ms, b :: ns => simp [sameMembers, same_iff a, sameMembers_iff ms]

end

instance : DecidableEq CallTree := fun t u => decidable_of_iff (same t u = true) (same_iff t u)

/-- The element of an array over a union with given distinct members. -/
def ofMembers : List CallTree → CallTree
  | [only] => only
  | members => union members

end CallTree

namespace SchemaType

open CallTree

mutual

def callTree : SchemaType → CallTree
  | string => .leaf .string
  | number => .leaf .number
  | boolean => .leaf .boolean
  | void => .leaf .void
  | any => .leaf .any
  | unknown => .leaf .unknown
  | array (union members) => .array (ofMembers (memberTrees members).eraseDups)
  | array element => .array (callTree element)
  | set element => .set (callTree element)
  | map key value => .map (callTree key) (callTree value)
  | object fields => .object (propertyTrees fields)
  | union members => .union (memberTrees members).eraseDups
  | default inner value => .default (callTree inner) (defaultText inner value)
  | optional inner => .optional (callTree inner)

def memberTrees : List SchemaType → List CallTree
  | [] => []
  | m :: rest => callTree m :: memberTrees rest

def propertyTrees : List (String × FieldOf SchemaType) → List (String × CallTree)
  | [] => []
  | (key, ⟨_, type, _⟩) :: rest => (key, callTree type) :: propertyTrees rest

end

/-- The members of a union whose texts stay: the first of each text. -/
def keptMembers (members : List SchemaType) : List SchemaType :=
  members.eraseDupsBy fun a b => render "" a == render "" b

end SchemaType
end SchemaGen
