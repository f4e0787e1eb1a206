import SchemaGen.Peg.Expr
import SchemaGen.Idl.Lexeme

namespace SchemaGen.Idl

open Peg Peg.Expr

/-- The rules that a report of a failure may name, in the order in which it names them. -/
inductive Rule where
  | endOfInput
  | document
  | include
  | cppInclude
  | ns
  | scope
  | constDef
  | typedefDef
  | enumDef
  | enumMember
  | structDef
  | unionDef
  | exceptionDef
  | serviceDef
  | extends
  | function
  | oneway
  | throws
  | field
  | fieldId
  | requiredness
  | fieldType
  | baseType
  | mapType
  | setType
  | listType
  | cppType
  | typeRef
  | constValue
  | double
  | int
  | bool
  | quoted
  | doubleQuoted
  | singleQuoted
  | constList
  | constMap
  | constEntry
  | annotations
  | note
  | identifier
  deriving DecidableEq, Repr

namespace Rule

def all : List Rule :=
  [.endOfInput, .document, .include, .cppInclude, .ns, .scope, .constDef, .typedefDef, .enumDef,
    .enumMember, .structDef, .unionDef, .exceptionDef, .serviceDef, .extends, .function, .oneway,
    .throws, .field, .fieldId, .requiredness, .fieldType, .baseType, .mapType, .setType,
    .listType, .cppType, .typeRef, .constValue, .double, .int, .bool, .quoted, .doubleQuoted,
    .singleQuoted, .constList, .constMap, .constEntry, .annotations, .note, .identifier]

def name : Rule → String
  | .endOfInput => "EOI"
  | .document => "document"
  | .include => "include"
  | .cppInclude => "cpp_include"
  | .ns => "namespace"
  | .scope => "namespace_scope"
  | .constDef => "const_def"
  | .typedefDef => "typedef_def"
  | .enumDef => "enum_def"
  | .enumMember => "enum_member"
  | .structDef => "struct_def"
  | .unionDef => "union_def"
  | .exceptionDef => "exception_def"
  | .serviceDef => "service_def"
  | .extends => "extends"
  | .function => "function"
  | .oneway => "oneway"
  | .throws => "throws"
  | .field => "field"
  | .fieldId => "field_id"
  | .requiredness => "requiredness"
  | .fieldType => "field_type"
  | .baseType => "base_type"
  | .mapType => "map_type"
  | .setType => "set_type"
  | .listType => "list_type"
  | .cppType => "cpp_type"
  | .typeRef => "type_ref"
  | .constValue => "const_value"
  | .double => "double_constant"
  | .int => "int_constant"
  | .bool => "bool_literal"
  | .quoted => "literal"
  | .doubleQuoted => "dq_content"
  | .singleQuoted => "sq_content"
  | .constList => "const_list"
  | .constMap => "const_map"
  | .constEntry => "const_entry"
  | .annotations => "annotations"
  | .note => "annotation"
  | .identifier => "identifier"

end Rule

namespace Grammar

def lit (text : String) : Expr Rule := literal text

def oneOf (texts : List String) : Expr Rule := choices (texts.map literal)

def nameChar : Expr Rule := char isNameChar

def name : Expr Rule := seq (char isNameStart) (many nameChar)

/-- One of several words, with no name character after it. -/
def wholeWord (words : List String) : Expr Rule := seq (oneOf words) (absent nameChar)

def listSeparator : Expr Rule := optional (oneOf [",", ";"])

def notes : Expr Rule := optional (rule .annotations)

def blank : Expr Rule := oneOf [" ", "\t", "\r", "\n"]

def lineBreak : Expr Rule := oneOf ["\n", "\r\n", "\r"]

def comment : Expr Rule :=
  choice
    (seqs [lit "/*", many (seq (absent (lit "*/")) any), lit "*/"])
    (seqs [oneOf ["//", "#"], many (seq (absent lineBreak) any)])

def digit : Expr Rule := char isDigit

def optionalSign : Expr Rule := optional (oneOf ["+", "-"])

def exponent : Expr Rule := seqs [oneOf ["e", "E"], optionalSign, some digit]

/-- The text up to a quote mark, with any character after a backslash. -/
def quotedText (mark : String) : Expr Rule :=
  many (choice (seq (lit "\\") any) (seq (absent (lit mark)) any))

/-- A definition with fields in braces, after its keyword. -/
def fieldsDef (keyword : String) : Expr Rule :=
  seqs [lit keyword, rule .identifier, lit "\x7b", many (rule .field), lit "\x7d", notes]

/-- Items in brackets, each with an optional separator. -/
def items (opening : String) (item : Expr Rule) (closing : String) : Expr Rule :=
  seqs [lit opening, many (seq item listSeparator), lit closing]

def header : Expr Rule := choices [rule .cppInclude, rule .include, rule .ns]

def definition : Expr Rule :=
  seq
    (choices [rule .constDef, rule .typedefDef, rule .enumDef, rule .structDef, rule .unionDef,
      rule .exceptionDef, rule .serviceDef])
    listSeparator

def body : Rule → Expr Rule
  | .endOfInput => endOfText
  | .document => seqs [empty, many header, many definition, rule .endOfInput]
  | .include => seq (lit "include") (rule .quoted)
  | .cppInclude => seq (lit "cpp_include") (rule .quoted)
  | .ns => seqs [lit "namespace", rule .scope, rule .identifier, notes]
  | .scope => choice (lit "*") name
  | .constDef =>
    seqs [lit "const", rule .fieldType, rule .identifier, lit "=", rule .constValue]
  | .typedefDef => seqs [lit "typedef", rule .fieldType, rule .identifier, notes]
  | .enumDef =>
    seqs [lit "enum", rule .identifier, lit "\x7b", many (seq (rule .enumMember) listSeparator),
      lit "\x7d", notes]
  | .enumMember => seqs [rule .identifier, optional (seq (lit "=") (rule .int)), notes]
  | .structDef => fieldsDef "struct"
  | .unionDef => fieldsDef "union"
  | .exceptionDef => fieldsDef "exception"
  | .serviceDef =>
    seqs [lit "service", rule .identifier, optional (rule .extends), lit "\x7b",
      many (seq (rule .function) listSeparator), lit "\x7d", notes]
  | .extends => seq (lit "extends") (rule .identifier)
  | .function =>
    seqs [optional (rule .oneway), rule .fieldType, rule .identifier, lit "(", many (rule .field),
      lit ")", optional (rule .throws), notes]
  | .oneway => wholeWord ["oneway"]
  | .throws => seqs [lit "throws", lit "(", many (rule .field), lit ")"]
  | .field =>
    seqs [optional (rule .fieldId), optional (rule .requiredness), rule .fieldType,
      rule .identifier, optional (seq (lit "=") (rule .constValue)), notes, listSeparator]
  | .fieldId => seq (rule .int) (lit ":")
  | .requiredness => wholeWord ["required", "optional"]
  | .fieldType =>
    choice
      (seq (choices [rule .baseType, rule .mapType, rule .setType, rule .listType]) notes)
      (rule .typeRef)
  | .baseType =>
    wholeWord
      ["bool", "byte", "i8", "i16", "i32", "i64", "double", "string", "binary", "void"]
  | .mapType =>
    seqs [lit "map", optional (rule .cppType), lit "<", rule .fieldType, lit ",", rule .fieldType,
      lit ">"]
  | .setType => seqs [lit "set", optional (rule .cppType), lit "<", rule .fieldType, lit ">"]
  | .listType => seqs [lit "list", lit "<", rule .fieldType, lit ">", optional (rule .cppType)]
  | .cppType => seq (lit "cpp_type") (rule .quoted)
  | .typeRef => rule .identifier
  | .constValue =>
    choices [rule .double, rule .int, rule .bool, rule .quoted, rule .constList, rule .constMap,
      rule .identifier]
  | .double =>
    seq optionalSign
      (choice
        (seqs [many digit, lit ".", some digit, optional exponent])
        (seq (some digit) exponent))
  | .int => seq optionalSign (choice (seq (lit "0x") (some (char isHexDigit))) (some digit))
  | .bool => wholeWord ["true", "false"]
  | .quoted =>
    choice
      (seqs [lit "\"", rule .doubleQuoted, lit "\""])
      (seqs [lit "'", rule .singleQuoted, lit "'"])
  | .doubleQuoted => quotedText "\""
  | .singleQuoted => quotedText "'"
  | .constList => items "[" (rule .constValue) "]"
  | .constMap => items "\x7b" (rule .constEntry) "\x7d"
  | .constEntry => seqs [rule .constValue, lit ":", rule .constValue]
  | .annotations => items "(" (rule .note) ")"
  | .note => seq (rule .identifier) (optional (seq (lit "=") (rule .quoted)))
  | .identifier => name

/-- Lexemes are atomic, but for quoted text, whose contents are a rule of their own. -/
def scope : Rule → Scope
  | .scope | .oneway | .requiredness | .baseType | .double | .int | .bool | .doubleQuoted
  | .singleQuoted | .identifier => .atomic
  | .quoted => .compound
  | _ => .inherit

end Grammar

def grammar : Peg.Grammar Rule where
  body := Grammar.body
  scope := Grammar.scope
  gap := choice Grammar.blank Grammar.comment

end SchemaGen.Idl
