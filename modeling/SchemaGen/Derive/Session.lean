import SchemaGen.Derive.Constant
import SchemaGen.Text.Quoted

namespace SchemaGen

open Idl Text

structure Options where
  /-- Fields declared optional are not marked optional. -/
  disableOptional : Bool := false
  deriving DecidableEq, Inhabited

inductive Warning where
  | notAStruct (kind : Kind) (name : String)
  | annotationWithoutValue (struct field name : String)
  | unusableName (name : String)
  deriving DecidableEq, Inhabited

def Warning.message : Warning → String
  | notAStruct kind name =>
    "Unsupported thrift statement: " ++ kind.keyword ++ " " ++ name
  | annotationWithoutValue struct field name =>
    "Annotation " ++ name ++ " on " ++ struct ++ "." ++ field ++ " has no value"
  | unusableName name =>
    "Struct name " ++ name ++ " is not a valid TypeScript identifier, skipped"

/-- A computation that adds to the warnings of a session. -/
abbrev Session := StateM (List Warning)

namespace Session

def warn (w : Warning) : Session Unit := modify (· ++ [w])

/-- A field with a default takes it; an optional field without one is marked, unless marks are
disabled. -/
def fieldSchema (options : Options) (f : FieldDef) : SchemaType :=
  match f.default with
  | some e => .default (schemaOf f.type) e.value
  | none =>
    if !options.disableOptional && f.requiredness = .optional then .optional (schemaOf f.type)
    else schemaOf f.type

/-- Adds an annotation to a field; without a value it is only warned of. -/
def annotate (struct : String) (f : Field) (a : Annotation) : Session Field :=
  match a.value with
  | some value => pure (f.annotate a.name value)
  | none => do
    warn (.annotationWithoutValue struct f.name a.name)
    pure f

def field (options : Options) (struct : String) (f : FieldDef) : Session Field :=
  (f.annotations.getD []).foldlM (annotate struct) ⟨f.name, fieldSchema options f, []⟩

/-- A struct with its fields; of a repeated name the last field stays, in the first place. -/
def struct (options : Options) (d : StructDef) : Session Schema :=
  d.fields.foldlM (fun s f => s.insert <$> field options d.name f) (.empty d.name)

/-- Only a struct with a usable name has a schema. -/
def definition (options : Options) : Definition → Session (Option Schema)
  | .struct d =>
    if isBareName d.name then some <$> struct options d
    else do
      warn (.unusableName d.name)
      pure none
  | d => do
    warn (.notAStruct d.kind d.name)
    pure none

/-- The schemas of the definitions in order. -/
def definitions (options : Options) : List Definition → Session (List Schema)
  | [] => pure []
  | d :: rest => do
    let schema ← definition options d
    let schemas ← definitions options rest
    pure (schema.toList ++ schemas)

end Session

/-- The structs of a document and the warnings about it. -/
structure Derived where
  structs : List Schema
  warnings : List Warning

def deriveDocument (options : Options) (d : Document) : Derived :=
  let (structs, warnings) := (Session.definitions options d.definitions).run []
  ⟨structs, warnings⟩

end SchemaGen
