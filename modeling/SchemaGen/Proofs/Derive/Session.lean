import SchemaGen.Derive.Session

namespace SchemaGen.Session

open Idl

variable {α β : Type}

/-- Warnings that are there stay in front, and change nothing else. -/
def Additive (s : Session α) : Prop :=
  ∀ ws, s.run ws = ((s.run []).1, ws ++ (s.run []).2)

theorem run_bind (s : Session α) (f : α → Session β) (ws : List Warning) :
    (s >>= f).run ws = (f (s.run ws).1).run (s.run ws).2 := rfl

theorem additive_pure (a : α) : Additive (pure a : Session α) := by
  intro ws
  change (a, ws) = (a, ws ++ [])
  rw [List.append_nil]

theorem additive_warn (w : Warning) : Additive (warn w) := fun _ => rfl

theorem additive_bind {s : Session α} {f : α → Session β} (hs : Additive s)
    (hf : ∀ a, Additive (f a)) : Additive (s >>= f) := by
  intro ws
  rw [run_bind, run_bind, hs ws, hf _ (ws ++ _), hf _ (s.run []).2, List.append_assoc]

theorem additive_map {s : Session α} (f : α → β) (hs : Additive s) : Additive (f <$> s) := by
  intro ws
  change (f (s.run ws).1, (s.run ws).2) = (f (s.run []).1, ws ++ (s.run []).2)
  rw [hs ws]

theorem additive_foldlM {f : β → α → Session β} (hf : ∀ b a, Additive (f b a)) (b : β)
    (as : List α) : Additive (as.foldlM f b) := by
  induction as generalizing b with
  | nil => exact additive_pure b
  | cons a as ih =>
    rw [List.foldlM_cons]
    exact additive_bind (hf b a) ih

theorem additive_annotate (struct : String) (f : Field) (a : Annotation) :
    Additive (annotate struct f a) := by
  unfold annotate
  split
  · exact additive_pure _
  · exact additive_bind (additive_warn _) fun _ => additive_pure f

theorem additive_field (options : Options) (struct : String) (f : FieldDef) :
    Additive (field options struct f) :=
  additive_foldlM (additive_annotate struct) _ _

theorem additive_struct (options : Options) (d : StructDef) : Additive (struct options d) :=
  additive_foldlM (fun (s : Schema) f => additive_map s.insert (additive_field options d.name f))
    _ _

theorem additive_definition (options : Options) (d : Definition) :
    Additive (definition options d) := by
  unfold definition
  split
  · split
    · exact additive_map some (additive_struct options _)
    · exact additive_bind (additive_warn _) fun _ => additive_pure none
  · exact additive_bind (additive_warn _) fun _ => additive_pure none

theorem additive_definitions (options : Options) (ds : List Definition) :
    Additive (definitions options ds) := by
  induction ds with
  | nil => exact additive_pure []
  | cons d ds ih =>
    exact additive_bind (additive_definition options d) fun schema =>
      additive_bind ih fun schemas => additive_pure _

/-- Definitions in two parts are derived one part after the other. -/
theorem definitions_append (options : Options) (ds es : List Definition) :
    definitions options (ds ++ es) =
      definitions options ds >>= fun first =>
        definitions options es >>= fun second => pure (first ++ second) := by
  induction ds with
  | nil => simp [definitions]
  | cons d ds ih =>
    simp only [List.cons_append, definitions, ih, bind_assoc, pure_bind, List.append_assoc]

end SchemaGen.Session

namespace SchemaGen

open Idl

/-- The definitions of two documents are derived as those of one and then those of the other. -/
theorem deriveDocument_append (options : Options) (headers front back : List Header)
    (ds es : List Definition) :
    deriveDocument options ⟨headers, ds ++ es⟩ =
      ⟨(deriveDocument options ⟨front, ds⟩).structs ++ (deriveDocument options ⟨back, es⟩).structs,
        (deriveDocument options ⟨front, ds⟩).warnings ++
          (deriveDocument options ⟨back, es⟩).warnings⟩ := by
  have hes := Session.additive_definitions options es ((Session.definitions options ds).run []).2
  simp only [deriveDocument, Session.definitions_append, Session.run_bind]
  rw [hes]
  rfl

end SchemaGen
