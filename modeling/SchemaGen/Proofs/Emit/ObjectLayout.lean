import SchemaGen.Proofs.Derive.Structs
import SchemaGen.Proofs.Emit.Exports

namespace SchemaGen

open Idl Text

/-- The schemas that are built: by inserting fields, and from the definitions of structs. -/
inductive Schema.Built : Schema → Prop
  | empty (name : String) : Built (.empty name)
  | insert {s : Schema} (f : Field) : Built s → Built (s.insert f)
  | struct (options : Options) (d : StructDef) (ws : List Warning) :
    Built ((Session.struct options d).run ws).1

/-- Every field stands under its name. -/
def Schema.UnderNames (s : Schema) : Prop := ∀ e ∈ s.fields, e.1 = e.2.name

namespace Schema

variable {s : Schema}

theorem UnderNames.insert (h : s.UnderNames) (f : Field) : (s.insert f).UnderNames := by
  intro e he
  rcases Table.mem_insert he with rfl | he
  · rfl
  · exact h e he

theorem underNames_structOf (options : Options) (d : StructDef) :
    (structOf options d).UnderNames := by
  intro e he
  obtain ⟨-, -, hsource⟩ := structOf_eq options d
  obtain ⟨f, -, rfl⟩ := hsource e he
  exact (fieldOf_eq options f).1.symm

theorem Built.underNames (h : s.Built) : s.UnderNames := by
  induction h with
  | empty name => exact fun _ h => absurd h List.not_mem_nil
  | insert f _ ih => exact ih.insert f
  | struct options d ws =>
    rw [Session.fst_struct]
    exact underNames_structOf options d

end Schema

/-- What stands before the first property of an object call, between two and behind the last. -/
structure Layout where
  opening : String
  separator : String
  closing : String

/-- All properties on the line of the call. -/
def Layout.inline : Layout := ⟨" ", ", ", " "⟩

/-- Every property on a line of its own. -/
def ModuleStyle.block (style : ModuleStyle) : Layout :=
  ⟨"\n" ++ style.indent, ",\n" ++ style.indent, "\n"⟩

/-- An object call with its properties laid out. -/
def Layout.objectCall (layout : Layout) (properties : List String) : String :=
  if properties.isEmpty then "object(\x7b\x7d)"
  else "object(\x7b" ++ layout.opening ++ joinWith layout.separator properties ++ layout.closing ++
    "\x7d)"

/-- The properties of a struct. -/
def Schema.properties (p : String) (s : Schema) : List String :=
  s.fields.map fun e => e.2.type.renderNamed p e.1

theorem objectText_eq (properties : List String) :
    SchemaType.objectText properties = Layout.inline.objectCall properties := by
  have htext (body : String) : "object(\x7b " ++ body ++ " \x7d)" =
      "object(\x7b" ++ " " ++ body ++ " " ++ "\x7d)" := String.toList_inj.mp (by simp)
  unfold SchemaType.objectText Layout.objectCall
  split
  · rfl
  · exact htext _

theorem render_toType (p : String) (s : Schema) :
    s.toType.render p = p ++ Layout.inline.objectCall (s.properties p) := by
  rw [Schema.toType, SchemaType.render, SchemaType.renderProperties_eq_map, objectText_eq]
  rfl

namespace ModuleStyle

variable {style : ModuleStyle} {s : Schema}

theorem property_eq (hdocs : style.docs = false) (f : Field) :
    style.property f = style.indent ++ f.type.renderNamed (qualifier style.ns) f.name := by
  rw [property, docLines, hdocs]
  rfl

theorem properties_eq (hdocs : style.docs = false) (hs : s.UnderNames) :
    (s.fields.map fun e => style.property e.2) =
      (s.properties (qualifier style.ns)).map (style.indent ++ ·) := by
  rw [Schema.properties, List.map_map]
  refine List.map_congr_left fun e he => ?_
  rw [property_eq hdocs, Function.comp_apply, hs e he]

/-- The declaration of a struct without comments is that of an object call. -/
theorem schemaText_eq (hdocs : style.docs = false) (hs : s.UnderNames) :
    style.schemaText s = "export const " ++ style.exportName s.name ++ " = " ++
      (style.ns ++ "." ++ style.block.objectCall (s.properties (qualifier style.ns))) ++ ";" := by
  have htext (front ns body text : String) (h : "object(" ++ body ++ ")" = text) :
      front ++ ns ++ ".object(" ++ body ++ ");" = front ++ (ns ++ "." ++ text) ++ ";" := by
    subst h
    exact String.toList_inj.mp (by simp)
  refine htext _ _ _ _ ?_
  have hempty : (s.properties (qualifier style.ns)).isEmpty = s.isEmpty := List.isEmpty_map
  rw [Layout.objectCall, hempty]
  split
  · decide
  · next hne =>
    have hproperties : s.properties (qualifier style.ns) ≠ [] := by
      intro hnil
      rw [hnil] at hempty
      exact hne hempty.symm
    have hbody (body : String) :
        "object(" ++ ("\x7b\n" ++ (style.indent ++ body) ++ "\n\x7d") ++ ")" =
          "object(\x7b" ++ ("\n" ++ style.indent) ++ body ++ "\n" ++ "\x7d)" :=
      String.toList_inj.mp (by simp)
    rw [properties_eq hdocs hs, joinWith_map_front _ _ hproperties]
    exact hbody _

end ModuleStyle

/-- The declaration of a built schema without comments and types assigns the object call that its
type renders to, with every property on a line of its own, but for the dot that it puts behind the
namespace: it is that call exactly if the namespace is not empty. -/
theorem declaration_eq_iff {style : ModuleStyle} {s : Schema} (hdocs : style.docs = false)
    (htypes : style.types = false) (hs : s.Built) :
    s.toType.render (qualifier style.ns) =
        qualifier style.ns ++ Layout.inline.objectCall (s.properties (qualifier style.ns)) ∧
      style.declaration s = "export const " ++ style.exportName s.name ++ " = " ++
        (style.ns ++ "." ++ style.block.objectCall (s.properties (qualifier style.ns))) ++ ";" ∧
      (style.declaration s = "export const " ++ style.exportName s.name ++ " = " ++
          (qualifier style.ns ++ style.block.objectCall (s.properties (qualifier style.ns))) ++
            ";" ↔
        style.ns ≠ "") := by
  have hdeclaration : style.declaration s = style.schemaText s := by
    rw [ModuleStyle.declaration_eq, htypes]
    rfl
  have htext := ModuleStyle.schemaText_eq hdocs hs.underNames
  refine ⟨render_toType _ s, hdeclaration.trans htext, ?_⟩
  rw [hdeclaration, htext, String.append_left_inj, String.append_right_inj, String.append_left_inj,
    qualifier]
  split
  · next hns =>
    have hempty : style.ns = "" := String.isEmpty_iff.mp hns
    simp [hempty]
  · next hns =>
    simpa using hns

/-- A schema of two fields, the second of them of a name that is quoted. -/
theorem declaration_eq_fields :
    ModuleStyle.declaration {} (((Schema.empty "A").insert ⟨"x", .string, []⟩).insert
        ⟨"y z", .array .number, []⟩) =
      "export const ASchema = " ++
        "z.object(\x7b\n  x: z.string(),\n  'y z': z.array(z.number())\n\x7d);" ∧
    (((Schema.empty "A").insert ⟨"x", .string, []⟩).insert
        ⟨"y z", .array .number, []⟩).toType.render "z." =
      "z.object(\x7b x: z.string(), 'y z': z.array(z.number()) \x7d)" := by
  have hbuilt := ((Schema.Built.empty "A").insert ⟨"x", .string, []⟩).insert
    ⟨"y z", .array .number, []⟩
  obtain ⟨hrender, hdeclaration, -⟩ := @declaration_eq_iff {} _ rfl rfl hbuilt
  exact ⟨hdeclaration.trans (by decide +kernel), hrender.trans (by decide +kernel)⟩

/-- With an empty namespace the declaration has a dot in front of its call that the rendering of the
object type has not, in any layout. -/
theorem declaration_without_namespace :
    (Schema.empty "A").Built ∧
      ModuleStyle.declaration { ns := "" } (.empty "A") =
        "export const ASchema = .object(\x7b\x7d);" ∧
      (Schema.empty "A").toType.render (qualifier "") = "object(\x7b\x7d)" ∧
      ∀ layout : Layout, ModuleStyle.declaration { ns := "" } (.empty "A") ≠
        "export const " ++ ModuleStyle.exportName { ns := "" } "A" ++ " = " ++
          (qualifier "" ++ layout.objectCall ((Schema.empty "A").properties (qualifier ""))) ++
            ";" := by
  refine ⟨.empty "A", by decide +kernel, by decide +kernel, fun layout => ?_⟩
  have hcall : layout.objectCall ((Schema.empty "A").properties (qualifier "")) =
      "object(\x7b\x7d)" := rfl
  rw [hcall]
  decide +kernel

end SchemaGen
