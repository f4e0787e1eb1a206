import SchemaGen.Derive.Session
import SchemaGen.Proofs.Derive.Session
import SchemaGen.Proofs.Schema.Table

namespace SchemaGen

open Idl Text

/-- A field with the value of an annotation, if it has one. -/
def annotated (f : Field) (a : Annotation) : Field :=
  match a.value with
  | some value => f.annotate a.name value
  | none => f

def fieldOf (options : Options) (f : FieldDef) : Field :=
  (f.annotations.getD []).foldl annotated ⟨f.name, Session.fieldSchema options f, []⟩

def structOf (options : Options) (d : StructDef) : Schema :=
  d.fields.foldl (fun s f => s.insert (fieldOf options f)) (.empty d.name)

/-- The schema of a definition, if it has one. -/
def schemaOf? (options : Options) : Definition → Option Schema
  | .struct d => if isBareName d.name then some (structOf options d) else none
  | _ => none

namespace Session

variable {α β : Type} {ws : List Warning}

theorem fst_map (g : α → β) (s : Session α) : ((g <$> s).run ws).1 = g (s.run ws).1 := rfl

theorem fst_foldlM {f : β → α → Session β} {g : β → α → β}
    (h : ∀ b a ws, ((f b a).run ws).1 = g b a) (b : β) (as : List α) :
    ((as.foldlM f b).run ws).1 = as.foldl g b := by
  induction as generalizing b ws with
  | nil => rfl
  | cons a as ih => rw [List.foldlM_cons, run_bind, ih, h, List.foldl_cons]

theorem fst_annotate (struct : String) (f : Field) (a : Annotation) (ws : List Warning) :
    ((annotate struct f a).run ws).1 = annotated f a := by
  unfold annotate annotated
  cases a.value <;> rfl

theorem fst_field (options : Options) (struct : String) (f : FieldDef) :
    ((field options struct f).run ws).1 = fieldOf options f :=
  fst_foldlM (fst_annotate struct) _ _

theorem fst_struct (options : Options) (d : StructDef) :
    ((struct options d).run ws).1 = structOf options d := by
  refine fst_foldlM (fun s f ws => ?_) _ _
  rw [fst_map, fst_field]

theorem fst_definition (options : Options) (d : Definition) :
    ((definition options d).run ws).1 = schemaOf? options d := by
  cases d with
  | struct d =>
    rw [definition, schemaOf?]
    split
    · rw [fst_map, fst_struct]
    · rfl
  | _ => rfl

theorem fst_definitions (options : Options) (ds : List Definition) :
    ((definitions options ds).run ws).1 = ds.filterMap (schemaOf? options) := by
  induction ds generalizing ws with
  | nil => rfl
  | cons d ds ih =>
    rw [definitions, run_bind, run_bind, ih, fst_definition, List.filterMap_cons]
    cases schemaOf? options d <;> rfl

end Session

theorem deriveDocument_structs (options : Options) (d : Document) :
    (deriveDocument options d).structs = d.definitions.filterMap (schemaOf? options) :=
  Session.fst_definitions options d.definitions

theorem annotated_eq (f : Field) (a : Annotation) :
    (annotated f a).name = f.name ∧ (annotated f a).type = f.type ∧
      ((Table.keys f.annotations).Nodup → (Table.keys (annotated f a).annotations).Nodup) := by
  unfold annotated
  split
  · exact ⟨rfl, rfl, Table.nodup_keys_insert⟩
  · exact ⟨rfl, rfl, id⟩

theorem fieldOf_eq (options : Options) (f : FieldDef) :
    (fieldOf options f).name = f.name ∧
      (fieldOf options f).type = Session.fieldSchema options f ∧
      (Table.keys (fieldOf options f).annotations).Nodup := by
  have hfold (as : List Annotation) (g : Field) (hg : (Table.keys g.annotations).Nodup) :
      (as.foldl annotated g).name = g.name ∧ (as.foldl annotated g).type = g.type ∧
        (Table.keys (as.foldl annotated g).annotations).Nodup := by
    induction as generalizing g with
    | nil => exact ⟨rfl, rfl, hg⟩
    | cons a as ih =>
      obtain ⟨hname, htype, hnodup⟩ := annotated_eq g a
      obtain ⟨hn, ht, hk⟩ := ih (annotated g a) (hnodup hg)
      exact ⟨hn.trans hname, ht.trans htype, hk⟩
  exact hfold _ _ List.nodup_nil

theorem structOf_eq (options : Options) (d : StructDef) :
    (structOf options d).name = d.name ∧ (structOf options d).keys.Nodup ∧
      ∀ e ∈ (structOf options d).fields, ∃ f ∈ d.fields, e = (f.name, fieldOf options f) := by
  have hfold (fs : List FieldDef) (s : Schema) (hs : s.keys.Nodup)
      (hfs : ∀ f ∈ fs, f ∈ d.fields)
      (hin : ∀ e ∈ s.fields, ∃ f ∈ d.fields, e = (f.name, fieldOf options f)) :
      let t := fs.foldl (fun s f => s.insert (fieldOf options f)) s
      t.name = s.name ∧ t.keys.Nodup ∧
        ∀ e ∈ t.fields, ∃ f ∈ d.fields, e = (f.name, fieldOf options f) := by
    induction fs generalizing s with
    | nil => exact ⟨rfl, hs, hin⟩
    | cons f fs ih =>
      refine ih (s.insert (fieldOf options f)) (Table.nodup_keys_insert hs)
        (fun g hg => hfs g (List.mem_cons_of_mem f hg)) fun e he => ?_
      rcases Table.mem_insert he with rfl | he
      · exact ⟨f, hfs f List.mem_cons_self, by rw [(fieldOf_eq options f).1]⟩
      · exact hin e he
  exact hfold d.fields (.empty d.name) List.nodup_nil (fun _ h => h) (by simp [Schema.empty])

/-- Every struct of a document comes from the definition of a struct with a usable name. -/
theorem mem_structs {options : Options} {d : Document} {s : Schema}
    (h : s ∈ (deriveDocument options d).structs) :
    ∃ b, Definition.struct b ∈ d.definitions ∧ isBareName b.name = true ∧
      s = structOf options b := by
  rw [deriveDocument_structs, List.mem_filterMap] at h
  obtain ⟨e, he, hs⟩ := h
  cases e with
  | struct b =>
    rw [schemaOf?] at hs
    split at hs
    · next hb => exact ⟨b, he, hb, (Option.some.inj hs).symm⟩
    · cases hs
  | _ => cases hs

end SchemaGen
