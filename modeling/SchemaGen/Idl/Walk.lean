import SchemaGen.Idl.Diagnostic
import SchemaGen.Peg.Derivation

namespace SchemaGen.Idl

open Peg

abbrev ParseTree := Node Rule

namespace ParseTree

def name (t : ParseTree) : String := String.ofList t.text

/-- Quoted text as it was written, with what its escapes stand for. -/
def unescapeAll : List Char → List Char
  | '\\' :: c :: rest => unescape c :: unescapeAll rest
  | c :: rest => c :: unescapeAll rest
  | [] => []

section

variable (source : List Char)

/-- The error that a part is missing in a node. -/
def missing (t : ParseTree) (what : String) : Diagnostic :=
  let (line, column) := advance 1 1 (source.take (source.length - t.start.length))
  ⟨line, column, "expected " ++ what⟩

/-- The next of the parts of a node. -/
def expect (t : ParseTree) (what : String) :
    List ParseTree → Except Diagnostic (ParseTree × List ParseTree)
  | part :: rest => .ok (part, rest)
  | [] => .error (missing source t what)

def quoted (t : ParseTree) : Except Diagnostic String := do
  let (content, _) ← expect source t "string contents" t.children
  pure (String.ofList (unescapeAll content.text))

/-- The text that a node quotes first. -/
def firstQuoted (t : ParseTree) : Except Diagnostic String := do
  let (q, _) ← expect source t "string literal" t.children
  quoted source q

def firstName (t : ParseTree) : Except Diagnostic String := do
  let (n, _) ← expect source t "identifier" t.children
  pure (name n)

def ns (t : ParseTree) : Except Diagnostic Header := do
  let (scope, rest) ← expect source t "namespace scope" t.children
  let (n, _) ← expect source t "namespace name" rest
  pure (.ns (name scope) (name n))

def annotation (t : ParseTree) : Except Diagnostic Annotation := do
  let (n, rest) ← expect source t "annotation name" t.children
  match rest with
  | q :: _ => do
    let value ← quoted source q
    pure ⟨name n, some value⟩
  | [] => pure ⟨name n, none⟩

def annotations (t : ParseTree) : Except Diagnostic (List Annotation) :=
  t.children.mapM ( annotation source)

/-- The type of a base type's text. -/
def baseType (text : String) : FieldType :=
  match BaseType.ofName? text with
  | some b => .base b
  | none => .named text

mutual

def fieldType (t : ParseTree) : Except Diagnostic FieldType :=
  match t with
  | ⟨_, _, _, ⟨.baseType, _, text, _⟩ :: _⟩ => .ok (baseType (String.ofList text))
  | ⟨_, _, _, ⟨.mapType, start, text, parts⟩ :: _⟩ => do
    match ← typeParams parts with
    | key :: value :: _ => pure (.map key value)
    | _ => .error (missing source ⟨.mapType, start, text, parts⟩ "map key and value types")
  | ⟨_, _, _, ⟨.setType, start, text, parts⟩ :: _⟩ => do
    match ← typeParams parts with
    | element :: _ => pure (.set element)
    | [] => .error (missing source ⟨.setType, start, text, parts⟩ "element type")
  | ⟨_, _, _, ⟨.listType, start, text, parts⟩ :: _⟩ => do
    match ← typeParams parts with
    | element :: _ => pure (.list element)
    | [] => .error (missing source ⟨.listType, start, text, parts⟩ "element type")
  | ⟨_, _, _, ⟨.typeRef, _, text, _⟩ :: _⟩ => .ok (.named (String.ofList text))
  | t => .error (missing source t "type")

/-- The types among the parts of a container. -/
def typeParams : List ParseTree → Except Diagnostic (List FieldType)
  | [] => .ok []
  | t :: rest =>
    if t.rule = .fieldType then do
      let type ← fieldType t
      let types ← typeParams rest
      pure (type :: types)
    else typeParams rest

end

mutual

def constValue (t : ParseTree) : Except Diagnostic ConstExpr :=
  match t with
  | ⟨_, _, _, ⟨.double, _, text, _⟩ :: _⟩ => .ok (.double (String.ofList text))
  | ⟨_, _, _, ⟨.int, _, text, _⟩ :: _⟩ => .ok (.int (String.ofList text))
  | ⟨_, _, _, ⟨.bool, _, text, _⟩ :: _⟩ => .ok (.bool (String.ofList text == "true"))
  | ⟨_, _, _, ⟨.quoted, start, text, parts⟩ :: _⟩ => do
    let value ← quoted source ⟨.quoted, start, text, parts⟩
    pure (.string value)
  | ⟨_, _, _, ⟨.identifier, _, text, _⟩ :: _⟩ => .ok (.identifier (String.ofList text))
  | ⟨_, _, _, ⟨.constList, _, _, items⟩ :: _⟩ => do
    let items ← constItems items
    pure (.list items)
  | ⟨_, _, _, ⟨.constMap, _, _, entries⟩ :: _⟩ => do
    let entries ← constEntries entries
    pure (.map entries)
  | t => .error (missing source t "constant value")

def constItems : List ParseTree → Except Diagnostic (List ConstExpr)
  | [] => .ok []
  | t :: rest => do
    let item ← constValue t
    let items ← constItems rest
    pure (item :: items)

def constEntries : List ParseTree → Except Diagnostic (List (ConstExpr × ConstExpr))
  | [] => .ok []
  | t :: rest => do
    let entry ← constEntry t
    let entries ← constEntries rest
    pure (entry :: entries)

def constEntry (t : ParseTree) : Except Diagnostic (ConstExpr × ConstExpr) :=
  match t with
  | ⟨_, _, _, key :: value :: _⟩ => do
    let k ← constValue key
    let v ← constValue value
    pure (k, v)
  | ⟨rule, start, text, [key]⟩ => do
    let _ ← constValue key
    .error (missing source ⟨rule, start, text, [key]⟩ "map value")
  | t => .error (missing source t "map key")

end

/-- The parts of a field that were found so far. -/
structure FieldParts where
  id : Option Int := none
  requiredness : Requiredness := .default
  type : Option FieldType := none
  name : Option String := none
  default : Option ConstExpr := none
  annotations : Option (List Annotation) := none

def requiredness (text : String) : Requiredness :=
  if text = "required" then .required else if text = "optional" then .optional else .default

def fieldPart (found : FieldParts) (part : ParseTree) : Except Diagnostic FieldParts :=
  match part.rule with
  | .fieldId => .ok { found with id := part.children.head?.bind fun n => intValue? (name n) }
  | .requiredness => .ok { found with requiredness := requiredness (name part) }
  | .fieldType => do
    let type ← fieldType source part
    pure { found with type := some type }
  | .identifier => .ok { found with name := some (name part) }
  | .constValue => do
    let value ← constValue source part
    pure { found with default := some value }
  | .annotations => do
    let notes ← annotations source part
    pure { found with annotations := some notes }
  | _ => .ok found

def field (t : ParseTree) : Except Diagnostic FieldDef := do
  let found ← t.children.foldlM (fieldPart source) {}
  let n ← found.name.elim (.error (missing source t "field name")) .ok
  let type ← found.type.elim (.error (missing source t "field type")) .ok
  pure ⟨found.id, found.requiredness, type, n, found.default, found.annotations⟩

def structPart (found : StructDef) (part : ParseTree) : Except Diagnostic StructDef :=
  match part.rule with
  | .field => do
    let f ← field source part
    pure { found with fields := found.fields ++ [f] }
  | .annotations => do
    let notes ← annotations source part
    pure { found with annotations := notes }
  | _ => .ok found

def structBody (t : ParseTree) : Except Diagnostic StructDef := do
  let (n, rest) ← expect source t "struct name" t.children
  rest.foldlM (structPart source) ⟨name n, [], []⟩

def enumMember (t : ParseTree) : Except Diagnostic EnumMember := do
  let (n, rest) ← expect source t "enum member name" t.children
  let value := rest.find? fun part => part.rule = .int
  pure ⟨name n, value.bind fun part => intValue? (name part)⟩

def enumDef (t : ParseTree) : Except Diagnostic Definition := do
  let (n, rest) ← expect source t "enum name" t.children
  let members ← (rest.filter fun part => part.rule = .enumMember).mapM (enumMember source)
  pure (.enum (name n) members)

/-- The parts of a function that were found so far. -/
structure FunctionParts where
  oneway : Bool := false
  returns : Option FieldType := none
  name : Option String := none
  params : List FieldDef := []
  throws : List FieldDef := []

def functionPart (found : FunctionParts) (part : ParseTree) : Except Diagnostic FunctionParts :=
  match part.rule with
  | .oneway => .ok { found with oneway := true }
  | .fieldType => do
    let type ← fieldType source part
    pure { found with returns := some type }
  | .identifier => .ok { found with name := some (name part) }
  | .field => do
    let f ← field source part
    pure { found with params := found.params ++ [f] }
  | .throws => do
    let fields ← part.children.mapM (field source)
    pure { found with throws := found.throws ++ fields }
  | _ => .ok found

def function (t : ParseTree) : Except Diagnostic Function := do
  let found ← t.children.foldlM (functionPart source) {}
  let n ← found.name.elim (.error (missing source t "function name")) .ok
  let returns ← found.returns.elim (.error (missing source t "return type")) .ok
  pure ⟨found.oneway, returns, n, found.params, found.throws⟩

/-- What a service extends, and its functions. -/
abbrev ServiceParts := Option String × List Function

def servicePart (found : ServiceParts) (part : ParseTree) : Except Diagnostic ServiceParts :=
  match part.rule with
  | .extends => do
    let base ← firstName source part
    pure (some base, found.2)
  | .function => do
    let f ← function source part
    pure (found.1, found.2 ++ [f])
  | _ => .ok found

def serviceDef (t : ParseTree) : Except Diagnostic Definition := do
  let (n, rest) ← expect source t "service name" t.children
  let (base, functions) ← rest.foldlM (servicePart source) (none, [])
  pure (.service (name n) base functions)

def constDef (t : ParseTree) : Except Diagnostic Definition := do
  let (type, rest) ← expect source t "constant type" t.children
  let type ← fieldType source type
  let (n, rest) ← expect source t "constant name" rest
  let (value, _) ← expect source t "constant value" rest
  let value ← constValue source value
  pure (.const type (name n) value)

def typedefDef (t : ParseTree) : Except Diagnostic Definition := do
  let (type, rest) ← expect source t "typedef type" t.children
  let type ← fieldType source type
  let (n, _) ← expect source t "typedef name" rest
  pure (.typedef type (name n))

/-- A header or a definition of a document. Other parts are passed over. -/
def documentPart (found : Document) (part : ParseTree) : Except Diagnostic Document :=
  let header (h : Except Diagnostic Header) : Except Diagnostic Document := do
    let h ← h
    pure { found with headers := found.headers ++ [h] }
  let definition (d : Except Diagnostic Definition) : Except Diagnostic Document := do
    let d ← d
    pure { found with definitions := found.definitions ++ [d] }
  match part.rule with
  | .include => header (.include <$> firstQuoted source part)
  | .cppInclude => header (.cppInclude <$> firstQuoted source part)
  | .ns => header (ns source part)
  | .constDef => definition (constDef source part)
  | .typedefDef => definition (typedefDef source part)
  | .enumDef => definition (enumDef source part)
  | .structDef => definition (.struct <$> structBody source part)
  | .unionDef => definition (.union <$> structBody source part)
  | .exceptionDef => definition (.exception <$> structBody source part)
  | .serviceDef => definition (serviceDef source part)
  | _ => .ok found

/-- The document of the trees of a text. -/
def document : List ParseTree → Except Diagnostic Document
  | root :: _ => root.children.foldlM (documentPart source) ⟨[], []⟩
  | [] => .error ⟨1, 1, "expected document"⟩

end

end ParseTree
end SchemaGen.Idl
