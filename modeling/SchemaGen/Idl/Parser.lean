import SchemaGen.Idl.Document
import SchemaGen.Idl.Lexeme

/-!
The reader of interface definitions. It follows the grammar rule by rule: alternatives in order,
each repetition as long as it goes, and no return into either. A bound on the depth of types and
constants comes from the length of the text, which no nesting exceeds.
-/

namespace SchemaGen.Idl

open Reader

def annotation : Reader Annotation := do
  let name ← identifier
  let value ← maybe do
    token "="
    quoted
  pure ⟨name, value⟩

def annotations : Reader (List Annotation) := do
  token "("
  let list ← many do
    let a ← annotation
    separator
    pure a
  token ")"
  pure list

def baseType : Reader BaseType := fun cs =>
  match BaseType.ofName? (String.ofList (cs.takeWhile isNameChar)) with
  | some b => some (b, skip (cs.dropWhile isNameChar))
  | none => none

/-- A foreign type name beside a container, which is read and dropped. -/
def foreignType : Reader Unit := do
  token "cpp_type"
  let _ ← quoted
  pure ()

/-- A type in angle brackets after the name of a container, given how to read its parts. -/
def container (fieldType : Reader FieldType) : Reader FieldType :=
  either
    (do
      token "map"
      let _ ← maybe foreignType
      token "<"
      let key ← fieldType
      token ","
      let value ← fieldType
      token ">"
      pure (.map key value))
    (either
      (do
        token "set"
        let _ ← maybe foreignType
        token "<"
        let element ← fieldType
        token ">"
        pure (.set element))
      (do
        token "list"
        token "<"
        let element ← fieldType
        token ">"
        let _ ← maybe foreignType
        pure (.list element)))

def fieldTypeUpTo : Nat → Reader FieldType
  | 0 => fun _ => none
  | depth + 1 =>
    either
      (do
        let type ← either (FieldType.base <$> baseType) (container (fieldTypeUpTo depth))
        let _ ← maybe annotations
        pure type)
      (FieldType.named <$> identifier)

def fieldType : Reader FieldType := fun cs => fieldTypeUpTo (cs.length + 1) cs

def truth : Reader Bool :=
  either (do word "true"; pure true) (do word "false"; pure false)

def constEntry (constValue : Reader ConstExpr) : Reader (ConstExpr × ConstExpr) := do
  let key ← constValue
  token ":"
  let value ← constValue
  pure (key, value)

def constUpTo : Nat → Reader ConstExpr
  | 0 => fun _ => none
  | depth + 1 =>
    either (ConstExpr.double <$> double) <|
    either (ConstExpr.int <$> int) <|
    either (ConstExpr.bool <$> truth) <|
    either (ConstExpr.string <$> quoted) <|
    either
      (do
        token "["
        let items ← many do
          let item ← constUpTo depth
          separator
          pure item
        token "]"
        pure (.list items)) <|
    either
      (do
        token "\x7b"
        let entries ← many do
          let entry ← constEntry (constUpTo depth)
          separator
          pure entry
        token "\x7d"
        pure (.map entries))
      (ConstExpr.identifier <$> identifier)

def constValue : Reader ConstExpr := fun cs => constUpTo (cs.length + 1) cs

def requiredness : Reader Requiredness :=
  either (do word "required"; pure .required) (do word "optional"; pure .optional)

def field : Reader FieldDef := do
  let id ← maybe do
    let text ← int
    token ":"
    pure text
  let required ← maybe requiredness
  let type ← fieldType
  let name ← identifier
  let default ← maybe do
    token "="
    constValue
  let notes ← maybe annotations
  separator
  pure ⟨id.bind intValue?, required.getD .default, type, name, default, notes⟩

/-- The body of a definition with fields, after its keyword. -/
def structBody (keyword : String) : Reader StructDef := do
  token keyword
  let name ← identifier
  token "\x7b"
  let fields ← many field
  token "\x7d"
  let notes ← maybe annotations
  pure ⟨name, fields, notes.getD []⟩

def enumMember : Reader EnumMember := do
  let name ← identifier
  let value ← maybe do
    token "="
    int
  let _ ← maybe annotations
  pure ⟨name, value.bind intValue?⟩

def enumDef : Reader Definition := do
  token "enum"
  let name ← identifier
  token "\x7b"
  let members ← many do
    let m ← enumMember
    separator
    pure m
  token "\x7d"
  let _ ← maybe annotations
  pure (.enum name members)

def function : Reader Function := do
  let oneway ← maybe (word "oneway")
  let returns ← fieldType
  let name ← identifier
  token "("
  let params ← many field
  token ")"
  let throws ← maybe do
    token "throws"
    token "("
    let fields ← many field
    token ")"
    pure fields
  let _ ← maybe annotations
  pure ⟨oneway.isSome, returns, name, params, throws.getD []⟩

def serviceDef : Reader Definition := do
  token "service"
  let name ← identifier
  let base ← maybe do
    token "extends"
    identifier
  token "\x7b"
  let functions ← many do
    let f ← function
    separator
    pure f
  token "\x7d"
  let _ ← maybe annotations
  pure (.service name base functions)

def constDef : Reader Definition := do
  token "const"
  let type ← fieldType
  let name ← identifier
  token "="
  let value ← constValue
  pure (.const type name value)

def typedefDef : Reader Definition := do
  token "typedef"
  let type ← fieldType
  let name ← identifier
  let _ ← maybe annotations
  pure (.typedef type name)

def definition : Reader Definition := do
  let d ←
    either constDef <|
    either typedefDef <|
    either enumDef <|
    either (Definition.struct <$> structBody "struct") <|
    either (Definition.union <$> structBody "union") <|
    either (Definition.exception <$> structBody "exception") serviceDef
  separator
  pure d

def scope : Reader String := either (do token "*"; pure "*") identifier

def header : Reader Header :=
  either (do token "cpp_include"; Header.cppInclude <$> quoted) <|
  either (do token "include"; Header.include <$> quoted)
    (do
      token "namespace"
      let s ← scope
      let name ← identifier
      let _ ← maybe annotations
      pure (.ns s name))

def document : Reader Document := do
  let headers ← many header
  let definitions ← many definition
  pure ⟨headers, definitions⟩

/-- The document that fills a text, if it is one. -/
def document? (source : String) : Option Document :=
  match document (skip source.toList) with
  | some (d, []) => some d
  | _ => none

end SchemaGen.Idl
