import SchemaGen.Proofs.Derive.Concatenation
import SchemaGen.Proofs.Derive.Warnings
import SchemaGen.Schema.Contents

namespace SchemaGen

open Idl

/-- The last declaration of a field name in a struct. -/
def Idl.StructDef.last? (b : StructDef) (name : String) : Option FieldDef :=
  b.fields.reverse.find? fun f => f.name == name

/-- Whether the last declaration of a field name is an optional one without a default. -/
def Idl.StructDef.marks (b : StructDef) (name : String) : Bool :=
  (b.last? name).any fun f => decide (f.requiredness = .optional) && f.default.isNone

/-- Fields of a struct without and with marks: they stand under one name, which is their own, their
annotations are the same, there is no mark in the one, and the other has one around its type if its
declaration is marked. -/
structure MarkedApart (b : StructDef) (plain marked : String × Field) : Prop where
  key : plain.1 = marked.1
  name : plain.2.name = plain.1
  markedName : marked.2.name = marked.1
  annotations : plain.2.annotations = marked.2.annotations
  unmarked : plain.2.type.hasOptional = false
  type : marked.2.type =
    if b.marks plain.1 then .optional plain.2.type else plain.2.type

theorem hasOptional_schemaOf (t : FieldType) : (schemaOf t).hasOptional = false := by
  induction t with
  | base b => cases b <;> rfl
  | named name => rfl
  | list t ih | set t ih => exact ih
  | map k v ihk ihv => rw [schemaOf, SchemaType.hasOptional, ihk, ihv]; rfl

theorem hasOptional_fieldSchema (f : FieldDef) :
    (Session.fieldSchema { disableOptional := true } f).hasOptional = false := by
  rw [Session.fieldSchema]
  split
  · exact hasOptional_schemaOf f.type
  · exact hasOptional_schemaOf f.type

/-- A default comes before a mark. -/
theorem fieldSchema_marked (f : FieldDef) :
    Session.fieldSchema { disableOptional := false } f =
      if f.requiredness = .optional && f.default.isNone then
        .optional (Session.fieldSchema { disableOptional := true } f)
      else Session.fieldSchema { disableOptional := true } f := by
  rw [Session.fieldSchema, Session.fieldSchema]
  cases f.default with
  | some e => simp
  | none => simp

/-- The annotations of a field do not depend on its type. -/
theorem annotations_fieldOf (o p : Options) (f : FieldDef) :
    (fieldOf o f).annotations = (fieldOf p f).annotations := by
  have hfold (as : List Annotation) (g h : Field) (hgh : g.annotations = h.annotations) :
      (as.foldl annotated g).annotations = (as.foldl annotated h).annotations := by
    induction as generalizing g h with
    | nil => exact hgh
    | cons a as ih =>
      refine ih _ _ ?_
      unfold annotated
      cases a.value with
      | none => exact hgh
      | some value => exact congrArg (Table.insert a.name value) hgh
  exact hfold _ _ _ rfl

/-- The declarations of a struct that stay, each under its name: of a repeated name the last, in
the place of the first. -/
def declared (b : StructDef) : List (String × FieldDef) :=
  Table.ofEntries (b.fields.map fun f => (f.name, f))

theorem structOf_fields (options : Options) (b : StructDef) :
    (structOf options b).fields = (declared b).map fun e => (e.1, fieldOf options e.2) := by
  have hfold (fs : List FieldDef) (s : Schema) :
      (fs.foldl (fun s f => s.insert (fieldOf options f)) s).fields =
        (fs.map fun f => (f.name, fieldOf options f)).foldl
          (fun t e => Table.insert e.1 e.2 t) s.fields := by
    induction fs generalizing s with
    | nil => rfl
    | cons f fs ih =>
      rw [List.foldl_cons, ih, List.map_cons, List.foldl_cons, Schema.insert,
        (fieldOf_eq options f).1]
  rw [structOf, hfold, declared, ← Table.ofEntries_map, List.map_map]
  rfl

theorem last?_of_mem_declared {b : StructDef} {e : String × FieldDef} (h : e ∈ declared b) :
    b.last? e.1 = some e.2 := by
  have hfind (fs : List FieldDef) :
      (fs.map fun f => (f.name, f)).lookup e.1 = fs.find? fun f => f.name == e.1 := by
    induction fs with
    | nil => rfl
    | cons f fs ih =>
      rw [List.map_cons, List.lookup_cons, List.find?_cons, ih, Bool.beq_comm]
  have hlookup := Table.lookup_of_mem (Table.nodup_keys_ofEntries _) h
  rwa [Table.lookup_ofEntries, ← List.map_reverse, hfind] at hlookup

theorem markedApart_structOf (b : StructDef) :
    List.Forall₂ (MarkedApart b) (structOf { disableOptional := true } b).fields
      (structOf { disableOptional := false } b).fields := by
  rw [structOf_fields, structOf_fields, List.forall₂_map_left_iff, List.forall₂_map_right_iff,
    List.forall₂_same]
  intro e he
  have hmarks : b.marks e.1 =
      (decide (e.2.requiredness = .optional) && e.2.default.isNone) := by
    rw [StructDef.marks, last?_of_mem_declared he, Option.any_some]
  have hname : e.2.name = e.1 := by
    simpa using List.find?_some (last?_of_mem_declared he)
  refine ⟨rfl, (fieldOf_eq _ e.2).1.trans hname, (fieldOf_eq _ e.2).1.trans hname,
    annotations_fieldOf _ _ _, ?_, ?_⟩
  · rw [(fieldOf_eq _ e.2).2.1]
    exact hasOptional_fieldSchema e.2
  · rw [(fieldOf_eq _ e.2).2.1, (fieldOf_eq _ e.2).2.1, hmarks]
    exact fieldSchema_marked e.2

/-- Two derivations of one text, without marks on optional fields and with them: either both fail
with the same diagnostics, or they give the same warnings and for each struct of the text with a
usable name, in order, a schema of its name with the same fields, but for one mark around the type
of each field whose last declaration is optional and has no default. -/
theorem deriveSource_marked_apart (source : String) :
    (∃ diagnostics,
      deriveSource { disableOptional := true } source = .error (.malformed none diagnostics) ∧
      deriveSource { disableOptional := false } source = .error (.malformed none diagnostics)) ∨
    ∃ d plain marked, parse source = .ok d ∧
      deriveSource { disableOptional := true } source = .ok plain ∧
      deriveSource { disableOptional := false } source = .ok marked ∧
      plain.warnings = marked.warnings ∧ plain.structs.length = marked.structs.length ∧
      List.Forall₂
        (fun b (s : Schema × Schema) => s.1.name = b.name ∧ s.2.name = b.name ∧
          List.Forall₂ (MarkedApart b) s.1.fields s.2.fields)
        (d.definitions.filterMap usableStruct?) (plain.structs.zip marked.structs) := by
  cases hp : parse source with
  | error e =>
    exact .inl ⟨[e], deriveSource_of_parse_error hp _, deriveSource_of_parse_error hp _⟩
  | ok d =>
    refine .inr ⟨d, _, _, rfl, deriveSource_of_parse hp _, deriveSource_of_parse hp _, ?_, ?_, ?_⟩
    · rw [deriveDocument_warnings, deriveDocument_warnings]
    · rw [deriveDocument_structs_eq_map, deriveDocument_structs_eq_map, List.length_map,
        List.length_map]
    · rw [deriveDocument_structs_eq_map, deriveDocument_structs_eq_map, List.zip_map',
        List.forall₂_map_right_iff, List.forall₂_same]
      intro b _
      exact ⟨(structOf_eq _ b).1, (structOf_eq _ b).1, markedApart_structOf b⟩

end SchemaGen
