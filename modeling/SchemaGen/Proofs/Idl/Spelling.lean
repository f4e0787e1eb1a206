import SchemaGen.Idl.Parser
import SchemaGen.Proofs.Idl.Token

namespace SchemaGen.Idl

/-- A comma, a semicolon or nothing. -/
inductive Separator : List Token → Prop where
  | absent : Separator []
  | comma : Separator [.mark ","]
  | semicolon : Separator [.mark ";"]

/-- Part of a definition that may be left out. -/
inductive Perhaps {α : Type} (P : α → List Token → Prop) : Option α → List Token → Prop where
  | absent : Perhaps P none []
  | present {a : α} {ts : List Token} (h : P a ts) : Perhaps P (some a) ts

/-- Parts one after another. -/
inductive Row {α : Type} (P : α → List Token → Prop) : List α → List Token → Prop where
  | nil : Row P [] []
  | cons {a : α} {as : List α} {ts us : List Token} (h : P a ts) (hr : Row P as us) :
      Row P (a :: as) (ts ++ us)

theorem Row.append {α : Type} {P : α → List Token → Prop} {as bs : List α} {ts us : List Token}
    (h : Row P as ts) (hu : Row P bs us) : Row P (as ++ bs) (ts ++ us) := by
  induction h with
  | nil => exact hu
  | cons ha _ ih =>
    rw [List.append_assoc]
    exact .cons ha ih

/-- Parts one after another, each with a separator after it. -/
inductive Items {α : Type} (P : α → List Token → Prop) : List α → List Token → Prop where
  | nil : Items P [] []
  | cons {a : α} {as : List α} {ts sep us : List Token} (h : P a ts) (hs : Separator sep)
      (hr : Items P as us) : Items P (a :: as) (ts ++ sep ++ us)

/-- A part with a separator after it. -/
def Ended {α : Type} (P : α → List Token → Prop) (a : α) (ts : List Token) : Prop :=
  ∃ us sep, P a us ∧ Separator sep ∧ ts = us ++ sep

theorem items_iff_row {α : Type} {P : α → List Token → Prop} {as : List α} {ts : List Token} :
    Items P as ts ↔ Row (Ended P) as ts := by
  constructor
  · intro h
    induction h with
    | nil => exact .nil
    | cons h hs _ ih => exact .cons ⟨_, _, h, hs, rfl⟩ ih
  · intro h
    induction h with
    | nil => exact .nil
    | cons h _ ih =>
      obtain ⟨us, sep, h, hs, rfl⟩ := h
      exact .cons h hs ih

/-- Parts between an opening and a closing mark. -/
def Enclosed {α : Type} (opening : String) (P : α → List Token → Prop) (closing : String)
    (as : List α) (ts : List Token) : Prop :=
  ∃ us, Items P as us ∧ ts = .mark opening :: (us ++ [.mark closing])

def Annotation.tokens (a : Annotation) : List Token :=
  .name a.name :: match a.value with
    | some value => [.mark "=", .quoted value]
    | none => []

def AnnotationsSpell : List Annotation → List Token → Prop :=
  Enclosed "(" (fun a ts => ts = a.tokens) ")"

/-- An annotation list of which nothing is kept, or none. -/
def Dropped (ts : List Token) : Prop := ∃ as, Perhaps AnnotationsSpell as ts

/-- A foreign type name, or none. -/
inductive Foreign : List Token → Prop where
  | absent : Foreign []
  | present (text : String) : Foreign [.mark "cpp_type", .quoted text]

/-- How a container is spelled, given how its parts are. -/
inductive ContainerSpells (P : FieldType → List Token → Prop) : FieldType → List Token → Prop where
  | list {t : FieldType} {ts fs : List Token} (h : P t ts) (hf : Foreign fs) :
      ContainerSpells P (.list t) (.mark "list" :: .mark "<" :: (ts ++ .mark ">" :: fs))
  | set {t : FieldType} {ts fs : List Token} (h : P t ts) (hf : Foreign fs) :
      ContainerSpells P (.set t) (.mark "set" :: (fs ++ .mark "<" :: (ts ++ [.mark ">"])))
  | map {k v : FieldType} {ks vs fs : List Token} (hk : P k ks) (hv : P v vs) (hf : Foreign fs) :
      ContainerSpells P (.map k v)
        (.mark "map" :: (fs ++ .mark "<" :: (ks ++ .mark "," :: (vs ++ [.mark ">"]))))

/-- No type that is named has the name of a base type. -/
inductive FieldType.Spells : FieldType → List Token → Prop where
  | base (b : BaseType) {ns : List Token} (hn : Dropped ns) :
      Spells (.base b) (.name b.name :: ns)
  | container {t : FieldType} {ts ns : List Token} (h : ContainerSpells Spells t ts)
      (hn : Dropped ns) : Spells t (ts ++ ns)
  | named {n : String} (h : BaseType.ofName? n = none) : Spells (.named n) [.name n]

/-- The word of a truth value. -/
def truthWord (b : Bool) : String := if b then "true" else "false"

/-- A key and its value. -/
inductive Entry {α : Type} (P : α → List Token → Prop) : α × α → List Token → Prop where
  | mk {k v : α} {ks vs : List Token} (hk : P k ks) (hv : P v vs) :
      Entry P (k, v) (ks ++ .mark ":" :: vs)

inductive ConstExpr.Spells : ConstExpr → List Token → Prop where
  | bool (b : Bool) : Spells (.bool b) [.name (truthWord b)]
  | int (text : String) : Spells (.int text) [.int text]
  | double (text : String) : Spells (.double text) [.double text]
  | string (text : String) : Spells (.string text) [.quoted text]
  | list {items : List ConstExpr} {us : List Token} (h : Items Spells items us) :
      Spells (.list items) (.mark "[" :: (us ++ [.mark "]"]))
  | map {entries : List (ConstExpr × ConstExpr)} {us : List Token}
      (h : Items (Entry Spells) entries us) :
      Spells (.map entries) (.mark "\x7b" :: (us ++ [.mark "\x7d"]))
  | identifier {n : String} (h : ∀ b, n ≠ truthWord b) : Spells (.identifier n) [.name n]

/-- The number of a field. One that 64 bits do not hold is dropped. -/
inductive IdSpells : Option Int → List Token → Prop where
  | absent : IdSpells none []
  | present {id : Option Int} {text : String} (h : intValue? text = id) :
      IdSpells id [.index text, .mark ":"]

def Requiredness.tokens : Requiredness → List Token
  | required => [.name "required"]
  | optional => [.name "optional"]
  | default => []

/-- A value after its mark. -/
def Assigned {α : Type} (P : α → List Token → Prop) (a : α) (ts : List Token) : Prop :=
  ∃ us, P a us ∧ ts = .mark "=" :: us

/-- A type that starts like a requiredness belongs to a field that has one. -/
inductive FieldDef.Spells : FieldDef → List Token → Prop where
  | mk {f : FieldDef} {is ts ds ns : List Token} (hi : IdSpells f.id is)
      (hr : f.requiredness = .default → f.type ≠ .named "required" ∧ f.type ≠ .named "optional")
      (ht : f.type.Spells ts) (hd : Perhaps (Assigned ConstExpr.Spells) f.default ds)
      (hn : Perhaps AnnotationsSpell f.annotations ns) :
      Spells f (is ++ (f.requiredness.tokens ++ (ts ++ .name f.name :: (ds ++ ns))))

def FieldsSpell (opening closing : String) : List FieldDef → List Token → Prop :=
  Enclosed opening FieldDef.Spells closing

def StructDef.Spells (keyword : String) (s : StructDef) (ts : List Token) : Prop :=
  ∃ fs ns notes, FieldsSpell "\x7b" "\x7d" s.fields fs ∧ Perhaps AnnotationsSpell notes ns ∧
    s.annotations = notes.getD [] ∧ ts = .mark keyword :: .name s.name :: (fs ++ ns)

def EnumMember.Spells (m : EnumMember) (ts : List Token) : Prop :=
  ∃ text vs ns, Perhaps (Assigned fun s us => us = [.index s]) text vs ∧ Dropped ns ∧
    m.value = text.bind intValue? ∧ ts = .name m.name :: (vs ++ ns)

/-- The mark of a function without an answer. -/
def onewayTokens (oneway : Bool) : List Token := if oneway then [.name "oneway"] else []

def ThrowsSpell (fields : List FieldDef) (ts : List Token) : Prop :=
  ∃ us, FieldsSpell "(" ")" fields us ∧ ts = .mark "throws" :: us

/-- A result type that starts like the mark belongs to a function that has it. -/
inductive Function.Spells : Function → List Token → Prop where
  | mk {f : Function} {ts ps es ns : List Token} {throws : Option (List FieldDef)}
      (ho : f.oneway = false → f.returns ≠ .named "oneway") (ht : f.returns.Spells ts)
      (hp : FieldsSpell "(" ")" f.params ps) (he : Perhaps ThrowsSpell throws es)
      (hv : f.throws = throws.getD []) (hn : Dropped ns) :
      Spells f (onewayTokens f.oneway ++ (ts ++ .name f.name :: (ps ++ (es ++ ns))))

def ExtendsSpell (base : String) (ts : List Token) : Prop :=
  ts = [.mark "extends", .name base]

inductive Definition.Spells : Definition → List Token → Prop where
  | struct {s : StructDef} {ts : List Token} (h : s.Spells "struct" ts) : Spells (.struct s) ts
  | union {s : StructDef} {ts : List Token} (h : s.Spells "union" ts) : Spells (.union s) ts
  | exception {s : StructDef} {ts : List Token} (h : s.Spells "exception" ts) :
      Spells (.exception s) ts
  | enum {n : String} {members : List EnumMember} {ms ns : List Token}
      (hm : Enclosed "\x7b" EnumMember.Spells "\x7d" members ms) (hn : Dropped ns) :
      Spells (.enum n members) (.mark "enum" :: .name n :: (ms ++ ns))
  | typedef {t : FieldType} {n : String} {ts ns : List Token} (ht : t.Spells ts)
      (hn : Dropped ns) : Spells (.typedef t n) (.mark "typedef" :: (ts ++ .name n :: ns))
  | const {t : FieldType} {n : String} {e : ConstExpr} {ts es : List Token} (ht : t.Spells ts)
      (he : e.Spells es) :
      Spells (.const t n e) (.mark "const" :: (ts ++ .name n :: .mark "=" :: es))
  | service {n : String} {base : Option String} {functions : List Function}
      {bs fs ns : List Token} (hb : Perhaps ExtendsSpell base bs)
      (hf : Enclosed "\x7b" Function.Spells "\x7d" functions fs) (hn : Dropped ns) :
      Spells (.service n base functions)
        (.mark "service" :: .name n :: (bs ++ (fs ++ ns)))

def scopeToken (scope : String) : Token := if scope = "*" then .mark "*" else .name scope

inductive Header.Spells : Header → List Token → Prop where
  | include (path : String) : Spells (.include path) [.mark "include", .quoted path]
  | cppInclude (path : String) : Spells (.cppInclude path) [.mark "cpp_include", .quoted path]
  | ns {scope name : String} {ns : List Token} (hn : Dropped ns) :
      Spells (.ns scope name) (.mark "namespace" :: scopeToken scope :: .name name :: ns)

/-- Headers come first, and separators stand only after definitions. -/
inductive Document.Spells : Document → List Token → Prop where
  | mk {d : Document} {hs ds : List Token} (hh : Row Header.Spells d.headers hs)
      (hd : Items Definition.Spells d.definitions ds) : Spells d (hs ++ ds)

end SchemaGen.Idl
