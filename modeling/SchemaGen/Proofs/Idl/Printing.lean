import SchemaGen.Proofs.Idl.Spelling
import SchemaGen.Proofs.Numeric.Digits

namespace SchemaGen.Idl

variable {α : Type}

/-- An integer in base ten. -/
def decimal (i : Int) : List Char :=
  if i < 0 then '-' :: Numeric.decimalDigits i.natAbs else Numeric.decimalDigits i.natAbs

/-- Elements between marks, a comma after each. -/
def listTokens (opening : String) (tokens : α → List Token) (closing : String) (as : List α) :
    List Token :=
  .mark opening :: (as.flatMap (fun a => tokens a ++ [.mark ","]) ++ [.mark closing])

def annotationTokens (as : List Annotation) : List Token := listTokens "(" Annotation.tokens ")" as

def FieldType.tokens : FieldType → List Token
  | .base b => [.name b.name]
  | .list t => .mark "list" :: .mark "<" :: (t.tokens ++ [.mark ">"])
  | .set t => .mark "set" :: .mark "<" :: (t.tokens ++ [.mark ">"])
  | .map k v => .mark "map" :: .mark "<" :: (k.tokens ++ .mark "," :: (v.tokens ++ [.mark ">"]))
  | .named n => [.name n]

mutual

def ConstExpr.tokens : ConstExpr → List Token
  | .bool b => [.name (truthWord b)]
  | .int text => [.int text]
  | .double text => [.double text]
  | .string text => [.quoted text]
  | .list items => .mark "[" :: (itemTokens items ++ [.mark "]"])
  | .map entries => .mark "\x7b" :: (entryTokens entries ++ [.mark "\x7d"])
  | .identifier n => [.name n]

def itemTokens : List ConstExpr → List Token
  | [] => []
  | e :: es => e.tokens ++ .mark "," :: itemTokens es

def entryTokens : List (ConstExpr × ConstExpr) → List Token
  | [] => []
  | (k, v) :: es => k.tokens ++ .mark ":" :: (v.tokens ++ .mark "," :: entryTokens es)

end

/-- The tokens of a part that may be left out. -/
def perhapsTokens (tokens : α → List Token) : Option α → List Token
  | some a => tokens a
  | none => []

/-- A list that is left out when it is empty. -/
def present (as : List α) : Option (List α) := if as.isEmpty then none else some as

def idTokens (i : Int) : List Token := [.index (String.ofList (decimal i)), .mark ":"]

/-- A value after its mark. -/
def assignedTokens (tokens : α → List Token) (a : α) : List Token := .mark "=" :: tokens a

def FieldDef.tokens (f : FieldDef) : List Token :=
  perhapsTokens idTokens f.id ++ (f.requiredness.tokens ++ (f.type.tokens ++ .name f.name ::
    (perhapsTokens (assignedTokens ConstExpr.tokens) f.default ++
      perhapsTokens annotationTokens f.annotations)))

def StructDef.tokens (keyword : String) (s : StructDef) : List Token :=
  .mark keyword :: .name s.name :: (listTokens "\x7b" FieldDef.tokens "\x7d" s.fields ++
    perhapsTokens annotationTokens (present s.annotations))

def memberValueTokens (i : Int) : List Token := [.index (String.ofList (decimal i))]

def EnumMember.tokens (m : EnumMember) : List Token :=
  .name m.name :: perhapsTokens (assignedTokens memberValueTokens) m.value

def throwsTokens (fields : List FieldDef) : List Token :=
  .mark "throws" :: listTokens "(" FieldDef.tokens ")" fields

def Function.tokens (f : Function) : List Token :=
  onewayTokens f.oneway ++ (f.returns.tokens ++ .name f.name ::
    (listTokens "(" FieldDef.tokens ")" f.params ++
      perhapsTokens throwsTokens (present f.throws)))

def extendsTokens (base : String) : List Token := [.mark "extends", .name base]

def Definition.tokens : Definition → List Token
  | .struct s => s.tokens "struct"
  | .union s => s.tokens "union"
  | .exception s => s.tokens "exception"
  | .enum n members => .mark "enum" :: .name n :: listTokens "\x7b" EnumMember.tokens "\x7d" members
  | .typedef t n => .mark "typedef" :: (t.tokens ++ [.name n])
  | .const t n e => .mark "const" :: (t.tokens ++ .name n :: .mark "=" :: e.tokens)
  | .service n base functions =>
    .mark "service" :: .name n ::
      (perhapsTokens extendsTokens base ++ listTokens "\x7b" Function.tokens "\x7d" functions)

def Header.tokens : Header → List Token
  | .include path => [.mark "include", .quoted path]
  | .cppInclude path => [.mark "cpp_include", .quoted path]
  | .ns scope name => [.mark "namespace", scopeToken scope, .name name]

def Document.tokens (d : Document) : List Token :=
  d.headers.flatMap Header.tokens ++ d.definitions.flatMap Definition.tokens

/-- How a token is written. Quoted text may stand between either marks. -/
inductive Token.Written : Token → List Char → Prop where
  | mark (text : String) : Written (.mark text) text.toList
  | name (text : String) : Written (.name text) text.toList
  | index (text : String) : Written (.index text) text.toList
  | int (text : String) : Written (.int text) text.toList
  | double (text : String) : Written (.double text) text.toList
  | quoted (text : String) {q : Char} (h : q ∈ quoteMarks) :
      Written (.quoted text) (q :: (escapeQuoted q text.toList ++ [q]))

/-- Blanks and whole comments one after another. -/
inductive Pieces : List Char → Prop where
  | nil : Pieces []
  | cons {p cs : List Char} (hp : Piece p) (h : Pieces cs) : Pieces (p ++ cs)

/-- Tokens in their order, with blanks or comments between any two. -/
inductive Layout : List Token → List Char → Prop where
  | nil : Layout [] []
  | single {t : Token} {cs : List Char} (h : t.Written cs) : Layout [t] cs
  | cons {t u : Token} {ts : List Token} {cs gap rest : List Char} (h : t.Written cs)
      (hg : Pieces gap) (hne : gap ≠ []) (hr : Layout (u :: ts) rest) :
      Layout (t :: u :: ts) (cs ++ (gap ++ rest))

/-- A document printed as a text, in any layout. -/
inductive Document.Prints (d : Document) : List Char → Prop where
  | mk {front body back : List Char} (hf : Pieces front) (h : Layout d.tokens body)
      (hb : Pieces back) : Prints d (front ++ (body ++ back))

end SchemaGen.Idl
