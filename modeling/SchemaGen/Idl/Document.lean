namespace SchemaGen.Idl

inductive BaseType where
  | bool
  | byte
  | i8
  | i16
  | i32
  | i64
  | double
  | string
  | binary
  | void
  deriving DecidableEq, Repr

namespace BaseType

def all : List BaseType := [bool, byte, i8, i16, i32, i64, double, string, binary, void]

def name : BaseType → String
  | bool => "bool"
  | byte => "byte"
  | i8 => "i8"
  | i16 => "i16"
  | i32 => "i32"
  | i64 => "i64"
  | double => "double"
  | string => "string"
  | binary => "binary"
  | void => "void"

def ofName? (name : String) : Option BaseType := all.find? fun b => b.name == name

end BaseType

inductive FieldType where
  | base (type : BaseType)
  | list (element : FieldType)
  | set (element : FieldType)
  | map (key value : FieldType)
  | named (name : String)
  deriving DecidableEq, Repr, Inhabited

/-- A constant expression; numbers keep their text. -/
inductive ConstExpr where
  | bool (value : Bool)
  | int (text : String)
  | double (text : String)
  | string (text : String)
  | list (items : List ConstExpr)
  | map (entries : List (ConstExpr × ConstExpr))
  | identifier (name : String)
  deriving Repr, Inhabited

structure Annotation where
  name : String
  value : Option String
  deriving DecidableEq, Repr

inductive Requiredness where
  | required
  | optional
  | default
  deriving DecidableEq, Repr

/-- A field of a struct or a parameter of a function. A field without an annotation list differs
from one with an empty list. -/
structure FieldDef where
  id : Option Int := none
  requiredness : Requiredness := .default
  type : FieldType
  name : String
  default : Option ConstExpr := none
  annotations : Option (List Annotation) := none
  deriving Repr, Inhabited

/-- The body of a struct, a union or an exception. -/
structure StructDef where
  name : String
  fields : List FieldDef := []
  annotations : List Annotation := []
  deriving Repr, Inhabited

structure EnumMember where
  name : String
  value : Option Int
  deriving DecidableEq, Repr

structure Function where
  oneway : Bool
  returns : FieldType
  name : String
  params : List FieldDef
  throws : List FieldDef
  deriving Repr

inductive Kind where
  | struct
  | union
  | exception
  | enum
  | typedef
  | const
  | service
  deriving DecidableEq, Repr

/-- The keyword of a definition. -/
def Kind.keyword : Kind → String
  | struct => "struct"
  | union => "union"
  | exception => "exception"
  | enum => "enum"
  | typedef => "typedef"
  | const => "const"
  | service => "service"

inductive Definition where
  | struct (body : StructDef)
  | union (body : StructDef)
  | exception (body : StructDef)
  | enum (name : String) (members : List EnumMember)
  | typedef (type : FieldType) (name : String)
  | const (type : FieldType) (name : String) (value : ConstExpr)
  | service (name : String) (base : Option String) (functions : List Function)
  deriving Repr, Inhabited

namespace Definition

def kind : Definition → Kind
  | struct _ => .struct
  | union _ => .union
  | exception _ => .exception
  | enum _ _ => .enum
  | typedef _ _ => .typedef
  | const _ _ _ => .const
  | service _ _ _ => .service

def name : Definition → String
  | struct body | union body | exception body => body.name
  | enum name _ | typedef _ name | const _ name _ | service name _ _ => name

end Definition

inductive Header where
  | include (path : String)
  | cppInclude (path : String)
  | ns (scope name : String)
  deriving DecidableEq, Repr

structure Document where
  headers : List Header
  definitions : List Definition
  deriving Repr, Inhabited

end SchemaGen.Idl
