import Mathlib.Data.List.Forall2
import SchemaGen.Proofs.Derive.Structs

namespace SchemaGen

open Idl Text

/-- The struct that a definition declares, if its name is usable. -/
def usableStruct? : Definition → Option StructDef
  | .struct b => if isBareName b.name then some b else none
  | _ => none

theorem mem_usableStructs {ds : List Definition} {b : StructDef} :
    b ∈ ds.filterMap usableStruct? ↔ .struct b ∈ ds ∧ isBareName b.name = true := by
  rw [List.mem_filterMap]
  constructor
  · intro ⟨e, he, hb⟩
    cases e with
    | struct c =>
      rw [usableStruct?] at hb
      split at hb
      · next hc =>
        obtain rfl := Option.some.inj hb
        exact ⟨he, hc⟩
      · cases hb
    | _ => cases hb
  · intro ⟨hb, hname⟩
    exact ⟨_, hb, if_pos hname⟩

/-- The warning about an annotation, if it has no value. -/
def warningOf? (struct field : String) (a : Annotation) : Option Warning :=
  match a.value with
  | some _ => none
  | none => some (.annotationWithoutValue struct field a.name)

/-- The warnings about the annotations of a field, in order. -/
def fieldWarnings (struct : String) (f : FieldDef) : List Warning :=
  (f.annotations.getD []).filterMap (warningOf? struct f.name)

/-- The warnings that a definition calls for: one if it has no schema, else one for each annotation
without a value, in the order of its fields and of their annotations. All fields count, those that
a later field of the same name replaces too. -/
def warningsOf : Definition → List Warning
  | .struct b =>
    if isBareName b.name then b.fields.flatMap (fieldWarnings b.name) else [.unusableName b.name]
  | d => [.notAStruct d.kind d.name]

namespace Session

variable {α β : Type}

/-- The warnings that a computation raises alone. -/
def raised (s : Session α) : List Warning := (s.run []).2

theorem raised_bind (s : Session α) {f : α → Session β} (hf : ∀ a, Additive (f a)) :
    raised (s >>= f) = raised s ++ raised (f (s.run []).1) := by
  rw [raised, run_bind, hf]
  rfl

theorem raised_map (g : α → β) (s : Session α) : raised (g <$> s) = raised s := rfl

/-- A run over a list raises what its steps raise, if in the states that it reaches each step raises
what its item calls for. -/
theorem raised_foldlM {f : β → α → Session β} {g : α → List Warning} {P : β → Prop}
    (hf : ∀ b a, Additive (f b a))
    (hstep : ∀ b a, P b → raised (f b a) = g a ∧ P ((f b a).run []).1) {b : β} (hb : P b)
    (as : List α) : raised (as.foldlM f b) = as.flatMap g := by
  induction as generalizing b with
  | nil => rfl
  | cons a as ih =>
    obtain ⟨hraised, hnext⟩ := hstep b a hb
    rw [List.foldlM_cons, raised_bind _ fun c => additive_foldlM hf c as, hraised, ih hnext,
      List.flatMap_cons]

theorem run_mapM {f : α → Session β} (hf : ∀ a, Additive (f a)) (as : List α)
    (ws : List Warning) :
    (as.mapM f).run ws =
      (as.map fun a => ((f a).run []).1, ws ++ as.flatMap fun a => raised (f a)) := by
  induction as generalizing ws with
  | nil =>
    rw [List.mapM_nil, List.flatMap_nil, List.append_nil]
    rfl
  | cons a as ih =>
    rw [List.mapM_cons, run_bind, run_bind, hf a ws, ih, List.append_assoc]
    rfl

theorem raised_annotate (struct : String) (f : Field) (a : Annotation) :
    raised (annotate struct f a) = (warningOf? struct f.name a).toList := by
  unfold annotate warningOf?
  cases a.value <;> rfl

theorem raised_field (options : Options) (struct : String) (f : FieldDef) :
    raised (field options struct f) = fieldWarnings struct f := by
  -- an annotation is told of with the name of the field that is on its way
  have hstep (g : Field) (a : Annotation) (hg : g.name = f.name) :
      raised (annotate struct g a) = (warningOf? struct f.name a).toList ∧
        ((annotate struct g a).run []).1.name = f.name := by
    rw [raised_annotate, fst_annotate, (annotated_eq g a).1, hg]
    exact ⟨rfl, rfl⟩
  rw [field, raised_foldlM (additive_annotate struct) hstep rfl, fieldWarnings,
    List.filterMap_eq_flatMap_toList]

theorem raised_struct (options : Options) (d : StructDef) :
    raised (struct options d) = d.fields.flatMap (fieldWarnings d.name) := by
  have hadd (s : Schema) (f : FieldDef) := additive_map s.insert (additive_field options d.name f)
  refine raised_foldlM (P := fun _ => True) hadd (fun s f _ => ⟨?_, trivial⟩) trivial d.fields
  rw [raised_map, raised_field]

theorem raised_definition (options : Options) (d : Definition) :
    raised (definition options d) = warningsOf d := by
  cases d with
  | struct b =>
    rw [definition, warningsOf]
    split
    · rw [raised_map, raised_struct]
    · rfl
  | _ => rfl

theorem raised_definitions (options : Options) (ds : List Definition) :
    raised (definitions options ds) = ds.flatMap warningsOf := by
  induction ds with
  | nil => rfl
  | cons d ds ih =>
    have hrest := additive_definitions options ds
    rw [definitions, raised_bind _ fun schema => additive_bind hrest fun _ => additive_pure _,
      raised_bind _ fun _ => additive_pure _, raised_definition, ih, List.flatMap_cons]
    exact congrArg (warningsOf d ++ ·) (List.append_nil _)

/-- Definitions that are given to one session, one by one, and then a document. -/
def calls (options : Options) (ds : List Definition) (d : Document) :
    Session (List (Option Schema) × List Schema) := do
  let results ← ds.mapM (definition options)
  let structs ← definitions options d.definitions
  pure (results, structs)

end Session

/-- What a definition gives in a session of its own, and the warnings there. -/
def alone (options : Options) (d : Definition) : Option Schema × List Warning :=
  (Session.definition options d).run []

variable (options : Options)

theorem alone_eq (d : Definition) : alone options d = (schemaOf? options d, warningsOf d) :=
  Prod.ext (Session.fst_definition options d) (Session.raised_definition options d)

theorem deriveDocument_warnings (d : Document) :
    (deriveDocument options d).warnings = d.definitions.flatMap warningsOf :=
  Session.raised_definitions options d.definitions

theorem schemaOf?_eq (d : Definition) :
    schemaOf? options d = (usableStruct? d).map (structOf options) := by
  cases d with
  | struct b =>
    rw [schemaOf?, usableStruct?]
    split <;> rfl
  | _ => rfl

/-- A document has one schema for each of its structs with a usable name, in their order. -/
theorem deriveDocument_structs_eq_map (d : Document) :
    (deriveDocument options d).structs =
      (d.definitions.filterMap usableStruct?).map (structOf options) := by
  rw [deriveDocument_structs, List.map_filterMap]
  exact List.filterMap_congr fun e _ => schemaOf?_eq options e

theorem run_calls (ds : List Definition) (d : Document) :
    (Session.calls options ds d).run [] =
      ((ds.map (schemaOf? options), (deriveDocument options d).structs),
        (ds ++ d.definitions).flatMap warningsOf) := by
  have hadd := Session.additive_definitions options d.definitions
  have hresults : ds.map (fun e => ((Session.definition options e).run []).1) =
      ds.map (schemaOf? options) :=
    List.map_congr_left fun e _ => Session.fst_definition options e
  have hraised : (fun e => Session.raised (Session.definition options e)) = warningsOf :=
    funext (Session.raised_definition options)
  rw [Session.calls, Session.run_bind, Session.run_bind,
    Session.run_mapM (Session.additive_definition options), hadd, hresults, hraised,
    List.nil_append, List.flatMap_append, ← deriveDocument_warnings options d]
  rfl

/-- The calls of a session do not show in one another. Each definition has the result and raises the
warnings that it has alone; the document has one schema for each of its structs with a usable name,
in their order, which is the one that the struct has alone; and the warnings are those of all calls,
one after the other, where each definition raises what it calls for. -/
theorem calls_eq_alone (ds : List Definition) (d : Document) :
    ∃ results structs warnings,
      (Session.calls options ds d).run [] = ((results, structs), warnings) ∧
      results = ds.map (fun e => (alone options e).1) ∧
      structs = d.definitions.filterMap (fun e => (alone options e).1) ∧
      List.Forall₂ (fun b s => (alone options (.struct b)).1 = some s ∧ s.name = b.name)
        (d.definitions.filterMap usableStruct?) structs ∧
      warnings = (ds ++ d.definitions).flatMap (fun e => (alone options e).2) ∧
      ∀ e, (alone options e).2 = warningsOf e := by
  refine ⟨_, _, _, run_calls options ds d, ?_, ?_, ?_, ?_, ?_⟩
  · exact List.map_congr_left fun e _ => by rw [alone_eq]
  · rw [deriveDocument_structs]
    exact List.filterMap_congr fun e _ => by rw [alone_eq]
  · rw [deriveDocument_structs_eq_map, List.forall₂_map_right_iff, List.forall₂_same]
    intro b hb
    have hb := (mem_usableStructs.mp hb).2
    rw [alone_eq, schemaOf?, if_pos hb]
    exact ⟨rfl, (structOf_eq options b).1⟩
  · exact List.flatMap_congr fun e _ => by rw [alone_eq]
  · intro e
    rw [alone_eq]

end SchemaGen
