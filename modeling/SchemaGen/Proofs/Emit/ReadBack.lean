import SchemaGen.Idl.Contents
import SchemaGen.Proofs.Emit.CallText
import SchemaGen.Proofs.Emit.Comments

namespace SchemaGen

open Idl Text

/-- Rows that one map does not tell apart are not told apart by a map it determines. -/
theorem map_eq_of_map_eq {α β γ : Type} {f : α → β} {g : α → γ} {as bs : List α}
    (hg : ∀ a ∈ as, ∀ b ∈ bs, f a = f b → g a = g b) (h : as.map f = bs.map f) :
    as.map g = bs.map g := by
  induction as generalizing bs with
  | nil =>
    cases bs with
    | nil => rfl
    | cons b bs => cases h
  | cons a as ih =>
    cases bs with
    | nil => cases h
    | cons b bs =>
      simp only [List.forall_mem_cons] at hg
      rw [List.map_cons, List.map_cons, List.cons.injEq] at h
      rw [List.map_cons, List.map_cons, hg.1.1 h.1, ih (fun a ha => (hg.2 a ha).2) h.2]

/-- Blocks that begin with a blank line and have no other are told apart. -/
theorem blocks_unique {α : Type} {f : α → List String} {as bs : List α}
    (ha : ∀ a ∈ as, "" ∉ f a) (hb : ∀ b ∈ bs, "" ∉ f b)
    (h : as.flatMap (fun a => "" :: f a) = bs.flatMap fun b => "" :: f b) :
    as.map f = bs.map f := by
  have hend {x y : List String} {cs : List α} {rest : List String} (hx : "" ∉ x ++ y)
      (he : cs.flatMap (fun c => "" :: f c) = y ++ rest) : y = [] := by
    cases y with
    | nil => rfl
    | cons l y =>
      cases cs with
      | nil => simp at he
      | cons c cs =>
        obtain rfl : "" = l := (List.cons.inj he).1
        exact absurd (List.mem_append_right x List.mem_cons_self) hx
  induction as generalizing bs with
  | nil =>
    cases bs with
    | nil => rfl
    | cons b bs => simp at h
  | cons a as ih =>
    cases bs with
    | nil => simp at h
    | cons b bs =>
      rw [List.forall_mem_cons] at ha hb
      rw [List.flatMap_cons, List.flatMap_cons, List.cons_append, List.cons_append,
        List.cons.injEq] at h
      rcases List.append_eq_append_iff.mp h.2 with ⟨y, hf, hrest⟩ | ⟨y, hf, hrest⟩
      · obtain rfl := hend (hf ▸ hb.1) hrest
        rw [List.append_nil] at hf
        rw [List.map_cons, List.map_cons, hf, ih ha.2 hb.2 hrest]
      · obtain rfl := hend (hf ▸ ha.1) hrest
        rw [List.append_nil] at hf
        rw [List.map_cons, List.map_cons, hf, ih ha.2 hb.2 hrest.symm]

namespace ModuleStyle

/-- What the module of some structs says of one of them: the name it is exported under, and the
name and the rendered type of each field. -/
def outline (style : ModuleStyle) (s : Schema) : String × List (String × String) :=
  (style.exportName s.name,
    s.fields.map fun e => (e.2.name, e.2.type.render (qualifier style.ns)))

variable {style : ModuleStyle} {s t : Schema}

theorem fieldLine_unique {f g : Field} (h : style.fieldLine f = style.fieldLine g) :
    f.name = g.name ∧ f.type.render (qualifier style.ns) = g.type.render (qualifier style.ns) := by
  have htext (f : Field) : (style.fieldLine f).toList = style.indent.toList ++
      ((objectKey f.name).toList ++ ':' :: ' ' :: (f.type.render (qualifier style.ns)).toList) := by
    simp [fieldLine, SchemaType.renderNamed]
  have hlist := congrArg String.toList h
  rw [htext, htext, List.append_cancel_left_eq] at hlist
  obtain ⟨hname, htype⟩ := CallTree.key_unique hlist
  exact ⟨hname, String.toList_inj.mp (List.cons.inj htype).2⟩

theorem fieldLines_ne_nil (style : ModuleStyle) (f : Field) (fields : List Field) :
    style.fieldLines (f :: fields) ≠ [] := by
  cases fields <;> simp [fieldLines]

theorem plain_fieldLines_cons (f g : Field) (fields : List Field) :
    style.plain.fieldLines (f :: g :: fields) =
      (style.fieldLine f ++ ",") :: style.plain.fieldLines (g :: fields) := rfl

theorem fieldLines_unique {fields others : List Field}
    (h : style.plain.fieldLines fields = style.plain.fieldLines others) :
    fields.map style.fieldLine = others.map style.fieldLine := by
  induction fields generalizing others with
  | nil =>
    cases others with
    | nil => rfl
    | cons g others => exact absurd h.symm (fieldLines_ne_nil _ g others)
  | cons f fields ih =>
    cases others with
    | nil => exact absurd h (fieldLines_ne_nil _ f fields)
    | cons g others =>
      cases fields with
      | nil =>
        cases others with
        | nil => exact congrArg (List.map id) h
        | cons g' others =>
          rw [plain_fieldLines_cons] at h
          exact absurd (List.cons.inj h).2.symm (fieldLines_ne_nil _ g' others)
      | cons f' fields =>
        cases others with
        | nil =>
          rw [plain_fieldLines_cons] at h
          exact absurd (List.cons.inj h).2 (fieldLines_ne_nil _ f' fields)
        | cons g' others =>
          rw [plain_fieldLines_cons, plain_fieldLines_cons, List.cons.injEq] at h
          rw [List.map_cons, (String.append_left_inj ",").mp h.1, ih h.2]
          rfl

theorem constHead_unique (hsuffix : ∀ c ∈ style.suffix.toList, isIdentifierRest c = true)
    (hs : isBareName s.name = true) (ht : isBareName t.name = true) {mark other : String}
    (h : style.constHead s ++ mark = style.constHead t ++ other) :
    style.exportName s.name = style.exportName t.name := by
  have hstop (rest : List Char) : Stops isIdentifierRest (" = ".toList ++ rest) := by
    simp [Stops, isIdentifierRest]
  have hlist := congrArg String.toList h
  rw [constHead_toList, constHead_toList, List.append_cancel_left_eq] at hlist
  have hname := congrArg (List.takeWhile isIdentifierRest) hlist
  rw [takeWhile_append_stop (exportName_chars hsuffix hs) (hstop _),
    takeWhile_append_stop (exportName_chars hsuffix ht) (hstop _)] at hname
  exact String.toList_inj.mp hname

theorem outline_eq (hname : style.exportName s.name = style.exportName t.name)
    (hlines : (s.fields.map (·.2)).map style.fieldLine = (t.fields.map (·.2)).map style.fieldLine) :
    style.outline s = style.outline t := by
  rw [List.map_map, List.map_map] at hlines
  have hfields : s.fields.map (fun e => (e.2.name, e.2.type.render (qualifier style.ns))) =
      t.fields.map fun e => (e.2.name, e.2.type.render (qualifier style.ns)) := by
    refine map_eq_of_map_eq (fun e _ e' _ he => ?_) hlines
    obtain ⟨hfield, htype⟩ := fieldLine_unique he
    rw [hfield, htype]
  rw [outline, outline, hname, hfields]

/-- The lines of a constant determine the name and the fields of the struct. -/
theorem constLines_unique (hsuffix : ∀ c ∈ style.suffix.toList, isIdentifierRest c = true)
    (hs : isBareName s.name = true) (ht : isBareName t.name = true)
    (h : style.plain.constLines s = style.plain.constLines t) :
    style.outline s = style.outline t := by
  have hfields {s : Schema} (he : s.isEmpty = true) : s.fields = [] := List.isEmpty_iff.mp he
  unfold constLines at h
  split at h <;> split at h
  · next hse hte =>
    refine outline_eq (constHead_unique hsuffix hs ht (List.cons.inj h).1) ?_
    rw [hfields hse, hfields hte]
  · simp at h
  · simp at h
  · obtain ⟨hhead, hlines⟩ := List.cons.inj h
    exact outline_eq (constHead_unique hsuffix hs ht hhead)
      (fieldLines_unique (List.append_cancel_right_eq _ _ _ ▸ hlines))

theorem constLines_no_blank (style : ModuleStyle) (s : Schema) :
    "" ∉ style.plain.constLines s := by
  have hhead (mark : String) : "" ≠ style.constHead s ++ mark := by
    intro he
    have hlist := congrArg String.toList he
    rw [constHead_toList] at hlist
    simp at hlist
  have hfield : "" ∉ style.plain.fieldLines (s.fields.map (·.2)) := by
    intro hm
    obtain ⟨f, -, mark, -, he⟩ := mem_fieldLines hm
    have hlist := congrArg String.toList he
    simp [fieldLine, SchemaType.renderNamed] at hlist
  unfold constLines
  split
  · exact fun hm => hhead _ (List.mem_singleton.mp hm)
  · simp only [List.mem_cons, List.mem_append, List.not_mem_nil, or_false, not_or]
    exact ⟨hhead _, hfield, by simp⟩

/-- The text of a module determines what it says of each struct. -/
theorem textOf_unique (hs : style.isTidy = true)
    (hsuffix : ∀ c ∈ style.suffix.toList, isIdentifierRest c = true) {structs others : List Schema}
    (h : ∀ s ∈ structs, isBareName s.name = true ∧ s.Lined)
    (k : ∀ s ∈ others, isBareName s.name = true ∧ s.Lined)
    (he : style.textOf structs = style.textOf others) :
    structs.map style.outline = others.map style.outline := by
  have htidy : style.plain.isTidy = true := hs
  have hlined : ∀ s ∈ structs, s.Lined := fun s hm => (h s hm).2
  have klined : ∀ s ∈ others, s.Lined := fun s hm => (k s hm).2
  have hplain : style.plain.textOf structs = style.plain.textOf others := by
    rw [← bare_textOf hs hsuffix hlined, ← bare_textOf hs hsuffix klined, he]
  have hlines := congrArg linesOf hplain
  rw [linesOf_textOf htidy hsuffix hlined, linesOf_textOf htidy hsuffix klined, moduleLines,
    moduleLines, List.append_cancel_right_eq, List.append_cancel_left_eq] at hlines
  have hconst (s : Schema) :
      style.plain.constLines s ++ style.plain.typeLines s = style.plain.constLines s :=
    List.append_nil _
  simp only [hconst] at hlines
  have hblocks := blocks_unique (fun s _ => constLines_no_blank style s)
    (fun s _ => constLines_no_blank style s) hlines
  exact map_eq_of_map_eq
    (fun s hm t ht he => constLines_unique hsuffix (h s hm).1 (k t ht).1 he) hblocks

end ModuleStyle

/-- Structs that are derived from a text stand on lines of their own. -/
theorem lined_of_deriveSource {options : Options} {source : String} {derived : Derived}
    (hd : deriveSource options source = .ok derived) :
    ∀ s ∈ derived.structs, isBareName s.name = true ∧ s.Lined := by
  obtain ⟨d, hp, rfl⟩ := parse_of_deriveSource hd
  intro s hm
  obtain ⟨hname, hfields⟩ := named_structs hp hm
  exact ⟨hname, oneLine_bareName hname, fun e he => (hfields e he).type,
    fun e he => (hfields e he).notes⟩

/-- Emission loses nothing: modules of derived structs with the same text hold as many structs, with
the same exported names, and fields of the same names and rendered types in the same order. -/
theorem emit_unique {options options' : Options} {source source' : String}
    {derived derived' : Derived} {style : ModuleStyle}
    (hd : deriveSource options source = .ok derived) (hne : derived.structs ≠ [])
    (hd' : deriveSource options' source' = .ok derived') (hne' : derived'.structs ≠ [])
    (hsuffix : ∀ c ∈ style.suffix.toList, isIdentifierRest c = true) (hs : style.isTidy = true)
    (he : style.emit derived.structs = style.emit derived'.structs) :
    derived.structs.length = derived'.structs.length ∧
      derived.structs.map style.outline = derived'.structs.map style.outline := by
  rw [style.emit_eq hne, style.emit_eq hne', Except.ok.injEq] at he
  have houtline := ModuleStyle.textOf_unique hs hsuffix (lined_of_deriveSource hd)
    (lined_of_deriveSource hd') he
  have hlength := congrArg List.length houtline
  rw [List.length_map, List.length_map] at hlength
  exact ⟨hlength, houtline⟩

theorem exists_emitted {source text : String} (h : (Idl.parse source).toOption.any (fun d =>
      ModuleStyle.moduleText {} (deriveDocument {} d).structs == some text) = true) :
    ∃ derived, deriveSource {} source = .ok derived ∧ derived.structs ≠ [] ∧
      ModuleStyle.emit {} derived.structs = .ok text := by
  obtain ⟨d, hp, hd⟩ := exists_parsed h
  have hderived := deriveSource_of_parse hp {}
  have hemit : ModuleStyle.emit {} (deriveDocument {} d).structs = .ok text := by
    rw [ModuleStyle.emit, beq_iff_eq.mp hd]
  have hne : (deriveDocument {} d).structs ≠ [] := by
    intro hnil
    rw [hnil] at hd
    cases hd
  exact ⟨_, hderived, hne, hemit⟩

/-- A text with an annotation that the module leaves out, and one without. -/
theorem emit_unique_annotation :
    ∃ derived derived', deriveSource {} "struct A\x7b1:bool x(a='b')\x7d" = .ok derived ∧
      deriveSource {} "struct A\x7b2:bool x\x7d" = .ok derived' ∧
      ModuleStyle.emit {} derived.structs = ModuleStyle.emit {} derived'.structs ∧
      derived.structs.length = derived'.structs.length ∧
      derived.structs.map (ModuleStyle.outline {}) =
        derived'.structs.map (ModuleStyle.outline {}) := by
  obtain ⟨derived, hd, hne, he⟩ := @exists_emitted "struct A\x7b1:bool x(a='b')\x7d"
    ("// GENERATED CODE - DO NOT MANUALLY MODIFY\nimport \x7b z \x7d from 'zod';\n\n" ++
      "export const ASchema = z.object(\x7b\n  x: z.boolean()\n\x7d);\n") (by decide +kernel)
  obtain ⟨derived', hd', hne', he'⟩ := @exists_emitted "struct A\x7b2:bool x\x7d"
    ("// GENERATED CODE - DO NOT MANUALLY MODIFY\nimport \x7b z \x7d from 'zod';\n\n" ++
      "export const ASchema = z.object(\x7b\n  x: z.boolean()\n\x7d);\n") (by decide +kernel)
  have hemit := he.trans he'.symm
  obtain ⟨hlength, houtline⟩ := emit_unique hd hne hd' hne' (List.all_eq_true.mp (by decide))
    (by decide) hemit
  exact ⟨derived, derived', hd, hd', hemit, hlength, houtline⟩

end SchemaGen
