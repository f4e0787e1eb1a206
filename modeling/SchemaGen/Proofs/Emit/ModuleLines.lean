import SchemaGen.Emit.Comments
import SchemaGen.Proofs.Emit.Exports

namespace SchemaGen

open Idl Text

theorem linesOf_break (front back : String) :
    linesOf (front ++ "\n" ++ back) = linesOf front ++ linesOf back := piecesOf_append front back

theorem linesOf_oneLine {s : String} (h : OneLine s) : linesOf s = [s] := piecesOf_single h

theorem linesOf_joinWith {texts : List String} (h : texts ≠ []) :
    linesOf (joinWith "\n" texts) = texts.flatMap linesOf := piecesOf_joinWith h

theorem joinWith_linesOf (text : String) : joinWith "\n" (linesOf text) = text :=
  joinWith_piecesOf '\n' text

theorem linesOf_oneLines {texts : List String} (h : ∀ t ∈ texts, OneLine t) :
    texts.flatMap linesOf = texts := by
  rw [flatMap_eq_map fun t ht => linesOf_oneLine (h t ht), List.map_id']

/-- What stands in a struct on lines of its own holds no line break: its name and the names of
annotations, and the names of constants among defaults. -/
structure Schema.Lined (s : Schema) : Prop where
  name : OneLine s.name
  types : ∀ e ∈ s.fields, e.2.type.Named
  notes : ∀ e ∈ s.fields, ∀ a ∈ e.2.annotations, isName a.1.toList = true

namespace ModuleStyle

variable (style : ModuleStyle)

def fieldLine (f : Field) : String :=
  style.indent ++ f.type.renderNamed (qualifier style.ns) f.name

/-- The lines of fields: all but the last line that is no comment end in a comma. -/
def fieldLines : List Field → List String
  | [] => []
  | [f] => style.docLines f ++ [style.fieldLine f]
  | f :: g :: rest => style.docLines f ++ [style.fieldLine f ++ ","] ++ fieldLines (g :: rest)

/-- The beginning of the declaration of a constant. -/
def constHead (s : Schema) : String :=
  "export const " ++ style.exportName s.name ++ " = " ++ style.ns ++ ".object("

def constLines (s : Schema) : List String :=
  if s.isEmpty then [style.constHead s ++ "\x7b\x7d);"]
  else (style.constHead s ++ "\x7b") :: (style.fieldLines (s.fields.map (·.2)) ++ ["\x7d);"])

def typeLine (s : Schema) : String :=
  "export type " ++ inferredName s.name (style.exportName s.name) ++ " = " ++ style.ns ++
    ".infer<typeof " ++ style.exportName s.name ++ ">;"

def typeLines (s : Schema) : List String := if style.types then [style.typeLine s] else []

def openingLines : List String :=
  ["// GENERATED CODE - DO NOT MANUALLY MODIFY",
    "import \x7b " ++ style.ns ++ " \x7d from '" ++ style.importFrom ++ "';"]

def moduleLines (structs : List Schema) : List String :=
  style.openingLines ++
    structs.flatMap (fun s => "" :: (style.constLines s ++ style.typeLines s)) ++ [""]

variable {style} {s : Schema}

theorem oneLine_indent (hs : style.isTidy = true) : OneLine style.indent := by
  intro hm
  rcases (isTidy_eq hs).2.2 _ hm with h | h <;> exact absurd h (by decide)

theorem oneLine_fieldLine (hs : style.isTidy = true) {f : Field} (h : f.type.Named) :
    OneLine (style.fieldLine f) :=
  (oneLine_indent hs).append (SchemaType.oneLine_renderNamed (oneLine_qualifier hs) _ h)

theorem oneLine_annotationLine (hs : style.isTidy = true) {note : String × String}
    (hn : isName note.1.toList = true) : OneLine (style.annotationLine note) := by
  have htext : OneLine (String.ofList (commentText note.2.toList)) := by
    rw [OneLine, String.toList_ofList]
    exact commentText_oneLine note.2.toList
  have hmark := (oneLine_indent hs).append (t := " * @") (by simp [OneLine])
  exact ((hmark.append (oneLine_name hn)).append (by simp [OneLine])).append htext

theorem oneLine_docLines (hs : style.isTidy = true) {f : Field}
    (h : ∀ a ∈ f.annotations, isName a.1.toList = true) : ∀ l ∈ style.docLines f, OneLine l := by
  have hindent := oneLine_indent hs
  unfold docLines
  split
  · simp only [List.forall_mem_append, List.forall_mem_singleton, List.forall_mem_map]
    exact ⟨⟨hindent.append (by simp [OneLine]), fun a ha => oneLine_annotationLine hs (h a ha)⟩,
      hindent.append (by simp [OneLine])⟩
  · exact fun _ h => absurd h List.not_mem_nil

theorem oneLine_exportName (hsuffix : ∀ c ∈ style.suffix.toList, isIdentifierRest c = true)
    {name : String} (h : OneLine name) : OneLine (style.exportName name) := by
  unfold exportName suffixed
  split
  · exact h
  · exact h.append (oneLine_of_chars hsuffix (by decide))

theorem oneLine_inferredName {name : String} (h : OneLine name) (schema : String) :
    OneLine (inferredName name schema) := by
  unfold inferredName
  split
  · exact h.append (by simp [OneLine])
  · exact h

theorem oneLine_constHead (hs : style.isTidy = true)
    (hsuffix : ∀ c ∈ style.suffix.toList, isIdentifierRest c = true) (h : OneLine s.name) :
    OneLine (style.constHead s) := by
  have hword : OneLine "export const " := by simp [OneLine]
  have hequals : OneLine " = " := by simp [OneLine]
  have hname := (hword.append (oneLine_exportName hsuffix h)).append hequals
  exact (hname.append (isTidy_eq hs).1).append (by simp [OneLine])

theorem oneLine_typeLine (hs : style.isTidy = true)
    (hsuffix : ∀ c ∈ style.suffix.toList, isIdentifierRest c = true) (h : OneLine s.name) :
    OneLine (style.typeLine s) := by
  have hword : OneLine "export type " := by simp [OneLine]
  have hname := (hword.append (oneLine_inferredName h (style.exportName s.name))).append
    (t := " = ") (by simp [OneLine])
  have hcall := (hname.append (isTidy_eq hs).1).append (t := ".infer<typeof ") (by simp [OneLine])
  exact (hcall.append (oneLine_exportName hsuffix h)).append (by simp [OneLine])

theorem constHead_toList (s : Schema) (rest : String) :
    (style.constHead s ++ rest).toList = "export const ".toList ++
      ((style.exportName s.name).toList ++ (" = ".toList ++ (style.ns.toList ++
        (".object(".toList ++ rest.toList)))) := by
  unfold constHead
  simp only [String.toList_append, List.append_assoc]

/-- The lines of a property, whose last line may go on. -/
theorem linesOf_property (hs : style.isTidy = true) {f : Field} (ht : f.type.Named)
    (hn : ∀ a ∈ f.annotations, isName a.1.toList = true) {mark : String} (hm : OneLine mark) :
    linesOf (style.property f ++ mark) = style.docLines f ++ [style.fieldLine f ++ mark] := by
  have hlast : OneLine (style.fieldLine f ++ mark) := (oneLine_fieldLine hs ht).append hm
  rw [property, joinWith_append_back, linesOf_joinWith (by simp), linesOf_oneLines]
  · rfl
  · rw [List.forall_mem_append, List.forall_mem_singleton]
    exact ⟨oneLine_docLines hs hn, hlast⟩

theorem linesOf_properties (hs : style.isTidy = true) {fields : List Field} (hne : fields ≠ [])
    (ht : ∀ f ∈ fields, f.type.Named)
    (hn : ∀ f ∈ fields, ∀ a ∈ f.annotations, isName a.1.toList = true) :
    linesOf (joinWith ",\n" (fields.map style.property)) = style.fieldLines fields := by
  induction fields with
  | nil => exact absurd rfl hne
  | cons f fields ih =>
    rw [List.forall_mem_cons] at ht hn
    cases fields with
    | nil =>
      have hempty : OneLine "" := by simp [OneLine]
      have hline := linesOf_property hs ht.1 hn.1 hempty
      rw [String.append_empty, String.append_empty] at hline
      exact hline
    | cons g fields =>
      have hcut : joinWith ",\n" ((f :: g :: fields).map style.property) =
          style.property f ++ "," ++ "\n" ++ joinWith ",\n" ((g :: fields).map style.property) := by
        have hmark : ",\n" = "," ++ "\n" := rfl
        rw [List.map_cons, joinWith_cons_of_ne_nil (by simp)]
        simp only [hmark, String.append_assoc]
      rw [hcut, linesOf_break, linesOf_property hs ht.1 hn.1 (by simp [OneLine]),
        ih (by simp) ht.2 hn.2, fieldLines]

theorem linesOf_schemaText (hs : style.isTidy = true)
    (hsuffix : ∀ c ∈ style.suffix.toList, isIdentifierRest c = true) (h : s.Lined) :
    linesOf (style.schemaText s) = style.constLines s := by
  have hhead := oneLine_constHead hs hsuffix h.name
  unfold schemaText constLines
  split
  · have hline : OneLine (style.constHead s ++ "\x7b\x7d);") := hhead.append (by simp [OneLine])
    have htext (head : String) : head ++ "\x7b\x7d" ++ ");" = head ++ "\x7b\x7d);" :=
      String.append_assoc
    exact (congrArg linesOf (htext (style.constHead s))).trans (linesOf_oneLine hline)
  · next hempty =>
    have hfirst : OneLine (style.constHead s ++ "\x7b") := hhead.append (by simp [OneLine])
    have htext (head body : String) : head ++ ("\x7b\n" ++ body ++ "\n\x7d") ++ ");" =
        head ++ "\x7b" ++ "\n" ++ body ++ "\n" ++ "\x7d);" :=
      String.toList_inj.mp (by simp)
    have hne : s.fields.map (·.2) ≠ [] := by
      intro hnil
      exact hempty (List.isEmpty_iff.mpr (List.map_eq_nil_iff.mp hnil))
    have hproperties := linesOf_properties hs hne (List.forall_mem_map.mpr h.types)
      (List.forall_mem_map.mpr h.notes)
    rw [List.map_map] at hproperties
    refine (congrArg linesOf (htext (style.constHead s) _)).trans ?_
    rw [linesOf_break, linesOf_break, linesOf_oneLine hfirst,
      linesOf_oneLine (s := "\x7d);") (by simp [OneLine]), List.append_assoc, List.singleton_append]
    exact congrArg (fun lines => _ :: (lines ++ _)) hproperties

theorem linesOf_declaration (hs : style.isTidy = true)
    (hsuffix : ∀ c ∈ style.suffix.toList, isIdentifierRest c = true) (h : s.Lined) :
    linesOf (style.declaration s) = style.constLines s ++ style.typeLines s := by
  rw [declaration_eq, typeLines]
  split
  · have htext (front a b c d e f : String) :
        front ++ "\nexport type " ++ a ++ b ++ c ++ d ++ e ++ f =
          front ++ "\n" ++ ("export type " ++ a ++ b ++ c ++ d ++ e ++ f) :=
      String.toList_inj.mp (by simp)
    have hline := linesOf_oneLine (oneLine_typeLine hs hsuffix h.name)
    unfold typeLine at hline ⊢
    rw [htext, linesOf_break, linesOf_schemaText hs hsuffix h, hline]
  · rw [linesOf_schemaText hs hsuffix h, List.append_nil]

theorem linesOf_opening (hs : style.isTidy = true) :
    linesOf style.opening = style.openingLines := by
  obtain ⟨hns, hfrom, -⟩ := isTidy_eq hs
  have hcut {front first second : String} (h : front = first ++ "\n" ++ second) (a b c d : String) :
      front ++ a ++ b ++ c ++ d = first ++ "\n" ++ (second ++ a ++ b ++ c ++ d) := by
    subst h
    simp only [String.append_assoc]
  have hbreak : "// GENERATED CODE - DO NOT MANUALLY MODIFY\nimport \x7b " =
      "// GENERATED CODE - DO NOT MANUALLY MODIFY" ++ "\n" ++ "import \x7b " := by decide
  have hmarker : OneLine "// GENERATED CODE - DO NOT MANUALLY MODIFY" := by
    unfold OneLine
    decide
  have himport : OneLine ("import \x7b " ++ style.ns ++ " \x7d from '" ++ style.importFrom ++
      "';") := by
    have hword : OneLine "import \x7b " := by simp [OneLine]
    exact (((hword.append hns).append (by simp [OneLine])).append hfrom).append (by simp [OneLine])
  unfold opening
  rw [hcut hbreak, linesOf_break, linesOf_oneLine hmarker, linesOf_oneLine himport]
  rfl

theorem linesOf_paragraphs (first : String) (texts : List String) :
    linesOf (joinWith "\n\n" (first :: texts)) =
      linesOf first ++ texts.flatMap fun t => "" :: linesOf t := by
  induction texts generalizing first with
  | nil => simp [joinWith]
  | cons t texts ih =>
    have hbreaks : "\n\n" = "\n" ++ "" ++ "\n" := rfl
    have hcut : joinWith "\n\n" (first :: t :: texts) =
        first ++ "\n" ++ "" ++ "\n" ++ joinWith "\n\n" (t :: texts) := by
      rw [joinWith, hbreaks, ← String.append_assoc, ← String.append_assoc]
    rw [hcut, linesOf_break, linesOf_break, linesOf_oneLine (s := "") (by simp [OneLine]), ih,
      List.flatMap_cons]
    simp

/-- The lines of a module are those of its parts. -/
theorem linesOf_textOf (hs : style.isTidy = true)
    (hsuffix : ∀ c ∈ style.suffix.toList, isIdentifierRest c = true) {structs : List Schema}
    (h : ∀ s ∈ structs, s.Lined) : linesOf (style.textOf structs) = style.moduleLines structs := by
  have hend : style.textOf structs =
      joinWith "\n\n" (style.opening :: structs.map style.declaration) ++ "\n" ++ "" := by
    rw [textOf, String.append_empty]
  have hdeclarations : (structs.map style.declaration).flatMap (fun t => "" :: linesOf t) =
      structs.flatMap fun s => "" :: (style.constLines s ++ style.typeLines s) := by
    rw [List.flatMap_map, List.flatMap_congr]
    exact fun s hm => congrArg ("" :: ·) (linesOf_declaration hs hsuffix (h s hm))
  rw [hend, linesOf_break, linesOf_paragraphs, linesOf_opening hs, hdeclarations,
    linesOf_oneLine (s := "") (by simp [OneLine])]
  rfl

end ModuleStyle
end SchemaGen
