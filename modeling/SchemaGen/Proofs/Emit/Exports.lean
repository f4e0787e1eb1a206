import Mathlib.Data.List.Nodup
import SchemaGen.Proofs.Derive.Concatenation
import SchemaGen.Proofs.Derive.Named
import SchemaGen.Proofs.Emit.Lines

namespace SchemaGen

open Idl Text

/-- The words in front of an exported name. -/
def exportKeywords : List String := ["export const ", "export type "]

theorem exportKeyword_eq {keyword : String} (h : keyword ∈ exportKeywords) :
    (∃ cs, keyword.toList = 'e' :: cs) ∧ ' ' ∈ keyword.toList ∧ ':' ∉ keyword.toList := by
  simp only [exportKeywords, List.mem_cons, List.not_mem_nil, or_false] at h
  rcases h with rfl | rfl <;> exact ⟨⟨_, rfl⟩, by decide, by decide⟩

variable {keyword : String}

theorem silent_start (hk : keyword ∈ exportKeywords) {c : Char} (hc : c ≠ 'e') {cs : List Char}
    (h : '\n' ∉ c :: cs) : Silent keyword (c :: cs) := by
  obtain ⟨⟨ds, he⟩, -⟩ := exportKeyword_eq hk
  exact silent_front he hc h

/-- A bare key and its colon. -/
theorem silent_key (hk : keyword ∈ exportKeywords) {name : String} (hn : isBareName name = true)
    {cs : List Char} (h : '\n' ∉ cs) : Silent keyword (name.toList ++ ':' :: cs) := by
  obtain ⟨-, hspace, hcolon⟩ := exportKeyword_eq hk
  have hchars := bareName_chars hn
  have hline : '\n' ∉ name.toList ++ ':' :: cs := by
    have hname : '\n' ∉ name.toList := fun hm => absurd (hchars _ hm) (by decide)
    simp [hname, h]
  refine silent_line hline fun rest tail he => ?_
  rw [List.append_assoc, List.append_eq_append_iff] at he
  have hname : ' ' ∉ name.toList := fun hm => absurd (hchars _ hm) (by decide)
  rcases he with ⟨as, hkey, hrest⟩ | ⟨as, hkey, -⟩
  · cases as with
    | nil =>
      rw [List.append_nil] at hkey
      exact hname (hkey ▸ hspace)
    | cons a as =>
      obtain rfl : a = ':' := (List.cons.inj hrest).1.symm
      exact hcolon (by rw [hkey]; simp)
  · exact hname (by rw [hkey]; exact List.mem_append_left as hspace)

theorem flatMap_eq_map {α β : Type} {f : α → List β} {g : α → β} {l : List α}
    (h : ∀ a ∈ l, f a = [g a]) : l.flatMap f = l.map g :=
  (List.flatMap_congr h).trans List.map_eq_flatMap.symm

/-- Comment text, written in one pass. -/
def inComment : List Char → List Char
  | [] => []
  | '*' :: '/' :: rest => '*' :: '\\' :: '/' :: inComment rest
  | '\n' :: rest => ' ' :: inComment rest
  | c :: rest => c :: inComment rest

theorem commentText_eq (cs : List Char) : commentText cs = inComment cs := by
  unfold commentText
  induction cs using inComment.induct with
  | case1 => rfl
  | case2 rest ih =>
    rw [replacePair_pair, inComment, ← ih]
    simp [replaceChar]
  | case3 rest ih =>
    rw [replacePair_cons (by simp), inComment, ← ih]
    simp [replaceChar]
  | case4 c rest hclose hbreak ih =>
    rw [replacePair_cons hclose, replaceChar_cons hbreak, inComment, ih]
    · exact hclose
    · exact hbreak

theorem commentText_oneLine (cs : List Char) : '\n' ∉ commentText cs := by
  intro h
  obtain ⟨c, -, hc⟩ := List.mem_flatMap.mp h
  split at hc
  · simp at hc
  · next hne => exact hne (List.mem_singleton.mp hc).symm

namespace ModuleStyle

variable {style : ModuleStyle}

theorem isTidy_eq (h : style.isTidy = true) :
    OneLine style.ns ∧ OneLine style.importFrom ∧
      ∀ c ∈ style.indent.toList, c = ' ' ∨ c = '\t' := by
  simp only [isTidy, Bool.and_eq_true, List.all_eq_true, bne_iff_ne, Bool.or_eq_true,
    beq_iff_eq] at h
  exact ⟨fun hn => h.1.1 _ hn rfl, fun hn => h.1.2 _ hn rfl, h.2⟩

theorem silent_indented (hk : keyword ∈ exportKeywords) (hs : style.isTidy = true)
    {line : String} (h : OneLine line) (hl : Silent keyword line.toList) :
    Silent keyword (style.indent ++ line).toList := by
  obtain ⟨-, -, hindent⟩ := isTidy_eq hs
  rw [String.toList_append]
  cases hi : style.indent.toList with
  | nil => exact hl
  | cons c cs =>
    rw [hi, List.forall_mem_cons] at hindent
    have hbreak : '\n' ∉ c :: (cs ++ line.toList) := by
      intro hm
      rcases List.mem_cons.mp hm with rfl | hm
      · rcases hindent.1 with hc | hc <;> exact absurd hc (by decide)
      rcases List.mem_append.mp hm with hm | hm
      · rcases hindent.2 _ hm with hc | hc <;> exact absurd hc (by decide)
      · exact h hm
    refine silent_start hk ?_ hbreak
    rcases hindent.1 with rfl | rfl <;> decide

theorem oneLine_qualifier (hs : style.isTidy = true) : OneLine (qualifier style.ns) := by
  unfold qualifier
  split
  · simp [OneLine]
  · exact oneLine_append.mpr ⟨(isTidy_eq hs).1, by simp [OneLine]⟩

theorem silent_field (hk : keyword ∈ exportKeywords) (hs : style.isTidy = true) {f : Field}
    (hf : f.type.Named) :
    Silent keyword (style.indent ++ f.type.renderNamed (qualifier style.ns) f.name).toList := by
  have hq := oneLine_qualifier hs
  have hline := SchemaType.oneLine_renderNamed hq f.name hf
  refine silent_indented hk hs hline ?_
  have htext : (f.type.renderNamed (qualifier style.ns) f.name).toList =
      (objectKey f.name).toList ++ ':' :: ' ' :: (f.type.render (qualifier style.ns)).toList := by
    simp [SchemaType.renderNamed]
  rw [OneLine, htext] at hline
  rw [htext]
  unfold objectKey at hline ⊢
  split
  · next hb =>
    rw [if_pos hb] at hline
    exact silent_key hk hb fun hm => hline (List.mem_append_right _ (List.mem_cons_of_mem _ hm))
  · next hb =>
    rw [if_neg hb] at hline
    rw [quote_toList, List.cons_append] at hline ⊢
    exact silent_start hk (by decide) hline

theorem silent_note (hk : keyword ∈ exportKeywords) (hs : style.isTidy = true)
    {note : String × String} (hn : isName note.1.toList = true) :
    Silent keyword (style.annotationLine note).toList := by
  have htext : (" * @" ++ note.1 ++ " " ++ String.ofList (commentText note.2.toList)).toList =
      ' ' :: ("* @".toList ++ (note.1.toList ++ ' ' :: commentText note.2.toList)) := by
    simp
  have hline : OneLine (" * @" ++ note.1 ++ " " ++ String.ofList (commentText note.2.toList)) := by
    have hname : '\n' ∉ note.1.toList := oneLine_name hn
    have htail := commentText_oneLine note.2.toList
    rw [OneLine, htext]
    simp [hname, htail]
  have hindented : style.annotationLine note =
      style.indent ++ (" * @" ++ note.1 ++ " " ++ String.ofList (commentText note.2.toList)) := by
    simp only [annotationLine, String.append_assoc]
  rw [hindented]
  refine silent_indented hk hs hline ?_
  rw [OneLine, htext] at hline
  rw [htext]
  exact silent_start hk (by decide) hline

theorem silent_property (hk : keyword ∈ exportKeywords) (hs : style.isTidy = true) {f : Field}
    (hf : f.Named) : Silent keyword (style.property f).toList := by
  have hempty : "\n" = "" ++ "\n" := rfl
  rw [property, hempty]
  refine silent_joinWith (by simp [OneLine]) (fun t ht => ?_) (by simp)
  rcases List.mem_append.mp ht with ht | ht
  · unfold docLines at ht
    split at ht
    · rcases List.mem_append.mp ht with ht | ht
      · rcases List.mem_append.mp ht with ht | ht
        · rw [List.mem_singleton.mp ht]
          exact silent_indented hk hs (by simp [OneLine]) (silent_start hk (by decide) (by decide))
        · obtain ⟨note, hn, rfl⟩ := List.mem_map.mp ht
          exact silent_note hk hs (hf.notes note hn)
      · rw [List.mem_singleton.mp ht]
        exact silent_indented hk hs (by simp [OneLine]) (silent_start hk (by decide) (by decide))
    · exact absurd ht List.not_mem_nil
  · rw [List.mem_singleton.mp ht]
    exact silent_field hk hs hf.type

/-- The constant of a struct. -/
def schemaText (style : ModuleStyle) (s : Schema) : String :=
  "export const " ++ style.exportName s.name ++ " = " ++ style.ns ++ ".object(" ++
    (if s.isEmpty then "\x7b\x7d"
    else "\x7b\n" ++ joinWith ",\n" (s.fields.map fun f => style.property f.2) ++ "\n\x7d") ++ ");"

theorem declaration_eq (style : ModuleStyle) (s : Schema) :
    style.declaration s =
      if style.types then
        style.schemaText s ++ "\nexport type " ++ inferredName s.name (style.exportName s.name) ++
          " = " ++ style.ns ++ ".infer<typeof " ++ style.exportName s.name ++ ">;"
      else style.schemaText s := rfl

/-- The constant of a struct declares what its first line does. -/
theorem declaredNames_schemaText (hk : keyword ∈ exportKeywords) (hs : style.isTidy = true)
    {s : Schema} (hf : ∀ e ∈ s.fields, e.2.Named) {names : List String}
    (hfront : ∀ rest, '\n' ∉ rest → declaredNames keyword
      ("export const ".toList ++ ((style.exportName s.name).toList ++ ' ' :: rest)) = names) :
    declaredNames keyword (style.schemaText s).toList = names := by
  have hns : '\n' ∉ style.ns.toList := (isTidy_eq hs).1
  unfold schemaText
  split
  · have hcut : ("export const " ++ style.exportName s.name ++ " = " ++ style.ns ++ ".object(" ++
        "\x7b\x7d" ++ ");").toList = "export const ".toList ++ ((style.exportName s.name).toList ++
          ' ' :: ("= ".toList ++ (style.ns.toList ++ ".object(\x7b\x7d);".toList))) := by
      simp
    rw [hcut]
    exact hfront _ (by simp [hns])
  · next he =>
    have hcut : ("export const " ++ style.exportName s.name ++ " = " ++ style.ns ++ ".object(" ++
        ("\x7b\n" ++ joinWith ",\n" (s.fields.map fun f => style.property f.2) ++ "\n\x7d") ++
          ");").toList =
        ("export const ".toList ++ ((style.exportName s.name).toList ++
          ' ' :: ("= ".toList ++ (style.ns.toList ++ ".object(\x7b".toList)))) ++ '\n' ::
            ((joinWith ("," ++ "\n") (s.fields.map fun f => style.property f.2)).toList ++
              [] ++ '\n' :: "\x7d);".toList) := by
      simp
    have hlines : Silent keyword
        (joinWith ("," ++ "\n") (s.fields.map fun f => style.property f.2)).toList := by
      refine silent_joinWith (by simp [OneLine]) ?_ ?_
      · exact List.forall_mem_map.mpr fun e he => silent_property hk hs (hf e he)
      · intro hnil
        exact he (List.isEmpty_iff.mpr (List.map_eq_nil_iff.mp hnil))
    have hclose : Silent keyword "\x7d);".toList := silent_start hk (by decide) (by decide)
    rw [hcut, declaredNames_append, hfront _ (by simp [hns]),
      (hlines.append List.not_mem_nil hclose).names, List.append_nil]

variable {s : Schema}

theorem exportName_chars (hsuffix : ∀ c ∈ style.suffix.toList, isIdentifierRest c = true)
    (hname : isBareName s.name = true) :
    ∀ c ∈ (style.exportName s.name).toList, isIdentifierRest c = true := by
  unfold exportName suffixed
  split
  · exact bareName_chars hname
  · rw [String.toList_append, List.forall_mem_append]
    exact ⟨bareName_chars hname, hsuffix⟩

theorem inferredName_chars (hname : isBareName s.name = true) (schema : String) :
    ∀ c ∈ (inferredName s.name schema).toList, isIdentifierRest c = true := by
  unfold inferredName
  split
  · rw [String.toList_append, List.forall_mem_append]
    exact ⟨bareName_chars hname, List.all_eq_true.mp (by decide)⟩
  · exact bareName_chars hname

theorem declaration_types (htypes : style.types = true) (hs : style.isTidy = true)
    (hexport : ∀ c ∈ (style.exportName s.name).toList, isIdentifierRest c = true) :
    ∃ tail, '\n' ∉ tail ∧ (style.declaration s).toList = (style.schemaText s).toList ++
      '\n' :: ("export type ".toList ++
        ((inferredName s.name (style.exportName s.name)).toList ++ ' ' :: tail)) := by
  have hns : '\n' ∉ style.ns.toList := (isTidy_eq hs).1
  have hname : '\n' ∉ (style.exportName s.name).toList :=
    fun hm => absurd (hexport _ hm) (by decide)
  refine ⟨"= ".toList ++ (style.ns.toList ++ (".infer<typeof ".toList ++
    ((style.exportName s.name).toList ++ ">;".toList))), by simp [hns, hname], ?_⟩
  rw [declaration_eq, if_pos htypes]
  simp

/-- A declaration exports the constant of its struct. -/
theorem constNames_declaration (hs : style.isTidy = true)
    (hsuffix : ∀ c ∈ style.suffix.toList, isIdentifierRest c = true)
    (hname : isBareName s.name = true) (hf : ∀ e ∈ s.fields, e.2.Named) :
    constNames (style.declaration s) = [style.exportName s.name] := by
  have hexport := exportName_chars hsuffix hname
  have hschema : declaredNames "export const " (style.schemaText s).toList =
      [style.exportName s.name] :=
    declaredNames_schemaText (by decide) hs hf fun rest hr =>
      declaredNames_declaration (by decide) hexport hr
  rw [constNames]
  cases htypes : style.types with
  | false =>
    rw [declaration_eq, if_neg (by simp [htypes])]
    exact hschema
  | true =>
    obtain ⟨tail, htail, htext⟩ := declaration_types (s := s) htypes hs hexport
    have hinferred := inferredName_chars hname (style.exportName s.name)
    have hbreak : '\n' ∉ (inferredName s.name (style.exportName s.name)).toList :=
      fun hm => absurd (hinferred _ hm) (by decide)
    have htype : Silent "export const " ("export type ".toList ++
        ((inferredName s.name (style.exportName s.name)).toList ++ ' ' :: tail)) :=
      silent_line (by simp [hbreak, htail]) fun rest tail he => by simp at he
    rw [htext, declaredNames_append, hschema, htype.names, List.append_nil]

/-- Where types are wanted, a declaration exports the type of its struct. -/
theorem typeNames_declaration (hs : style.isTidy = true)
    (hsuffix : ∀ c ∈ style.suffix.toList, isIdentifierRest c = true)
    (hname : isBareName s.name = true) (hf : ∀ e ∈ s.fields, e.2.Named) :
    typeNames (style.declaration s) =
      if style.types then [inferredName s.name (style.exportName s.name)] else [] := by
  have hexport := exportName_chars hsuffix hname
  have hschema : declaredNames "export type " (style.schemaText s).toList = [] :=
    declaredNames_schemaText (by decide) hs hf fun rest hr => by
      have hbreak : '\n' ∉ (style.exportName s.name).toList :=
        fun hm => absurd (hexport _ hm) (by decide)
      have hline : Silent "export type "
          ("export const ".toList ++ ((style.exportName s.name).toList ++ ' ' :: rest)) :=
        silent_line (by simp [hbreak, hr]) fun rest tail he => by simp at he
      exact hline.names
  rw [typeNames]
  cases htypes : style.types with
  | false =>
    rw [declaration_eq, if_neg (by simp [htypes])]
    exact hschema
  | true =>
    obtain ⟨tail, htail, htext⟩ := declaration_types (s := s) htypes hs hexport
    have hinferred := inferredName_chars hname (style.exportName s.name)
    rw [htext, declaredNames_append, hschema, List.nil_append, if_pos rfl]
    exact declaredNames_declaration (by decide) hinferred htail

theorem declaredNames_opening (hk : keyword ∈ exportKeywords) (hs : style.isTidy = true) :
    declaredNames keyword style.opening.toList = [] := by
  obtain ⟨hns, hfrom, -⟩ := isTidy_eq hs
  have hwords : "// GENERATED CODE - DO NOT MANUALLY MODIFY\nimport \x7b ".toList =
      '/' :: "/ GENERATED CODE - DO NOT MANUALLY MODIFY".toList ++ '\n' :: 'i' ::
        "mport \x7b ".toList := by decide +kernel
  have hcut : style.opening.toList = '/' :: "/ GENERATED CODE - DO NOT MANUALLY MODIFY".toList ++
      '\n' :: 'i' :: ("mport \x7b ".toList ++ (style.ns.toList ++ (" \x7d from '".toList ++
        (style.importFrom.toList ++ "';".toList)))) := by
    unfold opening
    rw [String.toList_append, String.toList_append, String.toList_append, String.toList_append,
      hwords, List.append_assoc, List.append_assoc, List.append_assoc, List.append_assoc,
      List.cons_append, List.cons_append]
    rfl
  have hfirst : Silent keyword ('/' :: "/ GENERATED CODE - DO NOT MANUALLY MODIFY".toList) :=
    silent_start hk (by decide) (by decide)
  have hbreak : '\n' ∉ 'i' :: ("mport \x7b ".toList ++ (style.ns.toList ++
      (" \x7d from '".toList ++ (style.importFrom.toList ++ "';".toList)))) := by
    have hns' : '\n' ∉ style.ns.toList := hns
    have hfrom' : '\n' ∉ style.importFrom.toList := hfrom
    simp [hns', hfrom']
  have hsecond := silent_start hk (by decide) hbreak
  rw [hcut, declaredNames_append, hfirst.names, hsecond.names]
  rfl

/-- A module declares what its declarations do, one after another. -/
theorem declaredNames_module (hk : keyword ∈ exportKeywords) (hs : style.isTidy = true)
    (structs : List Schema) :
    declaredNames keyword
        (joinWith "\n\n" (style.opening :: structs.map style.declaration) ++ "\n").toList =
      structs.flatMap fun s => declaredNames keyword (style.declaration s).toList := by
  have hne : keyword.toList ≠ [] := by
    obtain ⟨⟨cs, he⟩, -⟩ := exportKeyword_eq hk
    simp [he]
  have hend : (joinWith "\n\n" (style.opening :: structs.map style.declaration) ++ "\n").toList =
      (joinWith "\n\n" (style.opening :: structs.map style.declaration)).toList ++ '\n' :: [] := by
    simp
  rw [hend, declaredNames_append, declaredNames_nil hne, List.append_nil,
    declaredNames_paragraphs hne, List.flatMap_cons, declaredNames_opening hk hs, List.nil_append,
    List.flatMap_map]

/-- The text of a module with some structs. -/
def textOf (style : ModuleStyle) (structs : List Schema) : String :=
  joinWith "\n\n" (style.opening :: structs.map style.declaration) ++ "\n"

theorem emit_eq (style : ModuleStyle) {structs : List Schema} (hne : structs ≠ []) :
    style.emit structs = .ok (style.textOf structs) := by
  cases structs with
  | nil => exact absurd rfl hne
  | cons s rest => rfl

theorem constNames_textOf (hs : style.isTidy = true) (structs : List Schema) :
    constNames (style.textOf structs) = structs.flatMap fun s => constNames (style.declaration s) :=
  declaredNames_module (by decide) hs structs

theorem typeNames_textOf (hs : style.isTidy = true) (structs : List Schema) :
    typeNames (style.textOf structs) = structs.flatMap fun s => typeNames (style.declaration s) :=
  declaredNames_module (by decide) hs structs

/-- The declarations of structs export the types of all of them, or of none. -/
theorem typeNames_declarations (hs : style.isTidy = true)
    (hsuffix : ∀ c ∈ style.suffix.toList, isIdentifierRest c = true) {structs : List Schema}
    (h : ∀ s ∈ structs, isBareName s.name = true ∧ ∀ e ∈ s.fields, e.2.Named) :
    structs.flatMap (fun s => typeNames (style.declaration s)) =
      if style.types then structs.map fun s => inferredName s.name (style.exportName s.name)
      else [] := by
  have heach (s : Schema) (hm : s ∈ structs) :=
    typeNames_declaration hs hsuffix (h s hm).1 (h s hm).2
  cases htypes : style.types with
  | true =>
    simp only [htypes, if_true] at heach ⊢
    exact flatMap_eq_map heach
  | false =>
    simp only [htypes, Bool.false_eq_true, if_false] at heach ⊢
    exact List.flatMap_eq_nil_iff.mpr heach

end ModuleStyle

theorem lowerFrom_ascii (before : List Char) {cs : List Char}
    (h : ∀ c ∈ cs, isIdentifierRest c = true) : lowerFrom before cs = cs.map lowerChar := by
  induction cs generalizing before with
  | nil => rfl
  | cons c cs ih =>
    rw [List.forall_mem_cons] at h
    have hsigma : c ≠ 'Σ' := by
      rintro rfl
      exact absurd h.1 (by decide)
    have hdotted : c ≠ 'İ' := by
      rintro rfl
      exact absurd h.1 (by decide)
    rw [lowerFrom, if_neg hsigma, if_neg hdotted, ih _ h.2, List.singleton_append, List.map_cons]

namespace ModuleStyle

variable {style : ModuleStyle} {a b : String}

theorem hasSuffix_append (hsuffix : ∀ c ∈ style.suffix.toList, isIdentifierRest c = true)
    (ha : ∀ c ∈ a.toList, isIdentifierRest c = true) :
    style.hasSuffix (a ++ style.suffix) = true := by
  have hall : ∀ c ∈ (a ++ style.suffix).toList, isIdentifierRest c = true := by
    rw [String.toList_append, List.forall_mem_append]
    exact ⟨ha, hsuffix⟩
  rw [hasSuffix, endsWith, lower, lower, String.toList_ofList, String.toList_ofList,
    lowerFrom_ascii [] hsuffix, lowerFrom_ascii [] hall, List.isSuffixOf_iff_suffix,
    String.toList_append, List.map_append]
  exact List.suffix_append _ _

theorem exportName_eq (style : ModuleStyle) (a : String) :
    style.exportName a = if style.hasSuffix a then a else a ++ style.suffix := rfl

/-- Two constants meet if one struct has the name of the other and the suffix behind it. -/
theorem exportName_inj (hsuffix : ∀ c ∈ style.suffix.toList, isIdentifierRest c = true)
    {names : List String} (hnames : ∀ a ∈ names, isBareName a = true) :
    (∀ a ∈ names, ∀ b ∈ names, style.exportName a = style.exportName b → a = b) ↔
      ∀ a ∈ names, a ++ style.suffix ∈ names → style.hasSuffix a = true := by
  constructor
  · intro hinj a ha has
    cases hs : style.hasSuffix a with
    | true => rfl
    | false =>
      have hsuffixed := hasSuffix_append hsuffix (bareName_chars (hnames a ha))
      have he : style.exportName a = style.exportName (a ++ style.suffix) := by
        rw [exportName_eq, exportName_eq, hs, hsuffixed]
        rfl
      rw [← hinj a ha _ has he] at hsuffixed
      rwa [hs] at hsuffixed
  · intro hfree a ha b hb he
    rw [exportName_eq, exportName_eq] at he
    cases hsa : style.hasSuffix a <;> cases hsb : style.hasSuffix b <;>
      simp only [hsa, hsb, Bool.false_eq_true, if_false, if_true] at he
    · exact String.append_left_inj style.suffix |>.mp he
    · have hf := hfree a ha (he ▸ hb)
      rw [hsa] at hf
      cases hf
    · have hf := hfree b hb (he ▸ ha)
      rw [hsb] at hf
      cases hf
    · exact he

theorem eq_exportName_iff (style : ModuleStyle) (a : String) :
    a = style.exportName a ↔ style.hasSuffix a = true := by
  rw [exportName_eq]
  cases hs : style.hasSuffix a with
  | true => simp
  | false =>
    simp only [Bool.false_eq_true, if_false, iff_false]
    intro he
    have hempty : style.suffix = "" := by
      have hlist := congrArg String.toList he
      rw [String.toList_append, List.self_eq_append_right] at hlist
      exact String.toList_eq_nil_iff.mp hlist
    simp [hasSuffix, endsWith, hempty, lower, lowerFrom] at hs

/-- The name of the type of a struct. -/
theorem inferredName_eq (style : ModuleStyle) (a : String) :
    inferredName a (style.exportName a) = if style.hasSuffix a then a ++ "Type" else a := by
  rw [inferredName]
  simp only [eq_exportName_iff]

/-- Two types meet if one struct has the name that the type of the other takes. -/
theorem inferredName_inj (style : ModuleStyle) (names : List String) :
    (∀ a ∈ names, ∀ b ∈ names,
        inferredName a (style.exportName a) = inferredName b (style.exportName b) → a = b) ↔
      ∀ a ∈ names, style.hasSuffix a = true → a ++ "Type" ∈ names →
        style.hasSuffix (a ++ "Type") = true := by
  simp only [inferredName_eq]
  constructor
  · intro hinj a ha hs hat
    cases ht : style.hasSuffix (a ++ "Type") with
    | true => rfl
    | false =>
      have he := hinj a ha _ hat (by rw [hs, ht]; rfl)
      rw [← he, hs] at ht
      cases ht
  · intro hfree a ha b hb he
    cases hsa : style.hasSuffix a <;> cases hsb : style.hasSuffix b <;>
      simp only [hsa, hsb, Bool.false_eq_true, if_false, if_true] at he
    · exact he
    · have hf := hfree b hb hsb (he ▸ ha)
      rw [← he, hsa] at hf
      cases hf
    · have hf := hfree a ha hsa (he ▸ hb)
      rw [he, hsb] at hf
      cases hf
    · exact String.append_left_inj "Type" |>.mp he

end ModuleStyle

/-- The names of some structs. -/
def structNames (structs : List Schema) : List String := structs.map (·.name)

/-- A module of derived structs exports a constant for each of them and, if types are wanted, a type
for each. -/
theorem exports_eq {options : Options} {source : String} {derived : Derived} {style : ModuleStyle}
    (hd : deriveSource options source = .ok derived) (hne : derived.structs ≠ [])
    (hsuffix : ∀ c ∈ style.suffix.toList, isIdentifierRest c = true) (hs : style.isTidy = true) :
    (∀ a ∈ structNames derived.structs, isBareName a = true) ∧
    ∃ text, style.emit derived.structs = .ok text ∧
      constNames text = (structNames derived.structs).map style.exportName ∧
      typeNames text = if style.types then
        (structNames derived.structs).map fun a => inferredName a (style.exportName a) else [] := by
  obtain ⟨d, hp, rfl⟩ := parse_of_deriveSource hd
  generalize hstructs : (deriveDocument options d).structs = structs at hne
  have hnamed : ∀ s ∈ structs, isBareName s.name = true ∧ ∀ e ∈ s.fields, e.2.Named := by
    intro s hm
    exact named_structs hp (hstructs ▸ hm)
  have hmap (f : String → String) :
      (structNames structs).map f = structs.map fun s => f s.name := List.map_map
  refine ⟨List.forall_mem_map.mpr fun s hm => (hnamed s hm).1, style.textOf structs,
    style.emit_eq hne, ?_, ?_⟩
  · rw [ModuleStyle.constNames_textOf hs, hmap]
    exact flatMap_eq_map fun s hm =>
      ModuleStyle.constNames_declaration hs hsuffix (hnamed s hm).1 (hnamed s hm).2
  · rw [ModuleStyle.typeNames_textOf hs, hmap]
    exact ModuleStyle.typeNames_declarations hs hsuffix hnamed

/-- A module of structs with different names exports a constant for each of them and, if types are
wanted, a type for each. All constants differ exactly if no struct has the name of another with the
suffix behind it that the other lacks, and all types exactly if no struct has the name that another
takes for its type. -/
theorem exports_nodup_iff {options : Options} {source : String} {derived : Derived}
    {style : ModuleStyle} (hd : deriveSource options source = .ok derived)
    (hne : derived.structs ≠ []) (hnodup : (structNames derived.structs).Nodup)
    (hsuffix : ∀ c ∈ style.suffix.toList, isIdentifierRest c = true) (hs : style.isTidy = true) :
    ∃ text, style.emit derived.structs = .ok text ∧
      constNames text = (structNames derived.structs).map style.exportName ∧
      (typeNames text = if style.types then
        (structNames derived.structs).map fun a => inferredName a (style.exportName a) else []) ∧
      ((constNames text).Nodup ↔ ∀ a ∈ structNames derived.structs,
        a ++ style.suffix ∈ structNames derived.structs → style.hasSuffix a = true) ∧
      (style.types = true → ((typeNames text).Nodup ↔ ∀ a ∈ structNames derived.structs,
        style.hasSuffix a = true → a ++ "Type" ∈ structNames derived.structs →
          style.hasSuffix (a ++ "Type") = true)) := by
  obtain ⟨hbare, text, hemit, hconst, htype⟩ := exports_eq hd hne hsuffix hs
  refine ⟨text, hemit, hconst, htype, ?_, fun ht => ?_⟩
  · rw [hconst, List.nodup_map_iff_inj_on hnodup, ModuleStyle.exportName_inj hsuffix hbare]
  · rw [htype, if_pos ht, List.nodup_map_iff_inj_on hnodup, style.inferredName_inj]

/-- The names of the structs of a text. -/
def sourceNames? (source : String) : Option (List String) :=
  match deriveSource {} source with
  | .ok derived => some (structNames derived.structs)
  | .error _ => none

theorem sourceNames?_eq_some {source a : String} {names : List String}
    (h : sourceNames? source = some (a :: names)) :
    ∃ derived, deriveSource {} source = .ok derived ∧ derived.structs ≠ [] ∧
      structNames derived.structs = a :: names := by
  unfold sourceNames? at h
  split at h
  · next derived hd =>
    have hnames := Option.some.inj h
    refine ⟨derived, hd, fun hnil => ?_, hnames⟩
    rw [hnil] at hnames
    cases hnames
  · cases h

/-- Structs that are exported under names of their own. -/
theorem exports_nodup_apart :
    ∃ derived text, deriveSource {} "struct A\x7b1:bool x\x7dstruct B\x7b\x7d" = .ok derived ∧
      structNames derived.structs = ["A", "B"] ∧
      ModuleStyle.emit { types := true } derived.structs = .ok text ∧
      (constNames text).Nodup ∧ (typeNames text).Nodup := by
  have hnames : sourceNames? "struct A\x7b1:bool x\x7dstruct B\x7b\x7d" = some ["A", "B"] := by
    decide +kernel
  obtain ⟨derived, hd, hne, hnames⟩ := sourceNames?_eq_some hnames
  have hsuffix : ∀ c ∈ (ModuleStyle.suffix { types := true }).toList,
      isIdentifierRest c = true := List.all_eq_true.mp (by decide)
  obtain ⟨text, ht, -, -, hconsts, htypes⟩ :=
    exports_nodup_iff hd hne (by rw [hnames]; decide) hsuffix (by decide)
  refine ⟨derived, text, hd, hnames, ht, hconsts.mpr ?_, (htypes rfl).mpr ?_⟩
  · rw [hnames]
    decide +kernel
  · rw [hnames]
    decide +kernel

/-- A struct with the name that the constant of another is exported under, and one with the name
that the type of another takes. -/
theorem exports_meet :
    (∃ derived text, deriveSource {} "struct A\x7b\x7dstruct ASchema\x7b\x7d" = .ok derived ∧
      ModuleStyle.emit {} derived.structs = .ok text ∧
      (structNames derived.structs).Nodup ∧ ¬ (constNames text).Nodup) ∧
    ∃ derived text,
      deriveSource {} "struct ASchema\x7b\x7dstruct ASchemaType\x7b\x7d" = .ok derived ∧
      ModuleStyle.emit { types := true } derived.structs = .ok text ∧
      (structNames derived.structs).Nodup ∧ ¬ (typeNames text).Nodup := by
  constructor
  · have hnames : sourceNames? "struct A\x7b\x7dstruct ASchema\x7b\x7d" =
        some ["A", "ASchema"] := by decide +kernel
    obtain ⟨derived, hd, hne, hnames⟩ := sourceNames?_eq_some hnames
    obtain ⟨-, text, ht, hconsts, -⟩ := @exports_eq {} _ derived {} hd hne
      (List.all_eq_true.mp (by decide)) (by decide)
    refine ⟨derived, text, hd, ht, by rw [hnames]; decide, ?_⟩
    rw [hconsts, hnames]
    decide +kernel
  · have hnames : sourceNames? "struct ASchema\x7b\x7dstruct ASchemaType\x7b\x7d" =
        some ["ASchema", "ASchemaType"] := by decide +kernel
    obtain ⟨derived, hd, hne, hnames⟩ := sourceNames?_eq_some hnames
    obtain ⟨-, text, ht, -, htypes⟩ := @exports_eq {} _ derived { types := true } hd hne
      (List.all_eq_true.mp (by decide)) (by decide)
    refine ⟨derived, text, hd, ht, by rw [hnames]; decide, ?_⟩
    rw [htypes, hnames]
    decide +kernel

end SchemaGen
