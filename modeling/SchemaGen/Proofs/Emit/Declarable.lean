import SchemaGen.Proofs.Emit.Exports
import SchemaGen.Proofs.Emit.Expression

namespace SchemaGen

open Idl Text

/-- The names of the types that are built in. -/
def builtinTypes : List String :=
  ["any", "bigint", "boolean", "never", "number", "object", "string", "symbol", "undefined",
    "unknown", "void"]

/-- The words that no constant and no type can be declared under. -/
def takenNames : List String := reservedWords ++ builtinTypes

/-- An identifier that is not taken. -/
def isDeclarable (name : String) : Bool := isBareName name && !takenNames.contains name

theorem isDeclarable_iff {name : String} (h : isBareName name = true) :
    isDeclarable name = true ↔ name ∉ takenNames := by
  rw [isDeclarable, h, Bool.true_and, Bool.not_eq_true', List.contains_eq_mem,
    decide_eq_false_iff_not]

theorem isBareName_append {name ending : String} (h : isBareName name = true)
    (he : ∀ c ∈ ending.toList, isIdentifierRest c = true) : isBareName (name ++ ending) = true := by
  unfold isBareName at h ⊢
  rw [String.toList_append]
  split at h
  · cases h
  · next c rest hname =>
    rw [hname, List.cons_append]
    rw [Bool.and_eq_true] at h
    simp only [List.all_append, h.1, h.2, List.all_eq_true.mpr he, Bool.and_self]

/-- No name of the form that avoids a constant is taken. -/
theorem append_type_notMem (name : String) : name ++ "Type" ∉ takenNames := by
  have hall : takenNames.all (fun word => !endsWith "Type" word) = true := by decide
  intro hm
  have hno := List.all_eq_true.mp hall _ hm
  have hends : endsWith "Type" (name ++ "Type") = true := by
    rw [endsWith, List.isSuffixOf_iff_suffix, String.toList_append]
    exact List.suffix_append _ _
  rw [hends] at hno
  cases hno

namespace ModuleStyle

variable {style : ModuleStyle} {a : String}

theorem isBareName_exportName (hsuffix : ∀ c ∈ style.suffix.toList, isIdentifierRest c = true)
    (ha : isBareName a = true) : isBareName (style.exportName a) = true := by
  rw [exportName_eq]
  split
  · exact ha
  · exact isBareName_append ha hsuffix

theorem isBareName_inferredName (style : ModuleStyle) (ha : isBareName a = true) :
    isBareName (inferredName a (style.exportName a)) = true := by
  rw [inferredName_eq]
  split
  · exact isBareName_append ha (List.all_eq_true.mp (by decide))
  · exact ha

/-- A constant has a given name if the struct has it, or has it with the suffix that it lacks. -/
theorem exportName_eq_iff (hsuffix : ∀ c ∈ style.suffix.toList, isIdentifierRest c = true)
    (ha : isBareName a = true) (word : String) :
    style.exportName a = word ↔ style.hasSuffix word = true ∧
      (a = word ∨ style.hasSuffix a = false ∧ a ++ style.suffix = word) := by
  rw [exportName_eq]
  cases hs : style.hasSuffix a with
  | true =>
    rw [if_pos rfl]
    constructor
    · rintro rfl
      exact ⟨hs, .inl rfl⟩
    · rintro ⟨-, rfl | ⟨hno, -⟩⟩
      · rfl
      · cases hno
  | false =>
    rw [if_neg (by decide)]
    constructor
    · rintro rfl
      exact ⟨hasSuffix_append hsuffix (bareName_chars ha), .inr ⟨rfl, rfl⟩⟩
    · rintro ⟨hw, rfl | ⟨-, rfl⟩⟩
      · rw [hs] at hw
        cases hw
      · rfl

/-- A type has a taken name exactly if the struct has it and lacks the suffix. -/
theorem inferredName_mem_taken (style : ModuleStyle) (a : String) :
    inferredName a (style.exportName a) ∈ takenNames ↔
      a ∈ takenNames ∧ style.hasSuffix a = false := by
  rw [inferredName_eq]
  cases hs : style.hasSuffix a with
  | true => simp [append_type_notMem]
  | false => simp

/-- What a declaration says, whatever stands in the style: it starts with its constant, and the type
stands on a line below, if types are wanted. -/
structure Declares (style : ModuleStyle) (s : Schema) : Prop where
  constant : ("export const " ++ style.exportName s.name ++ " = ").toList <+:
    (style.declaration s).toList
  type : style.types = true →
    ("\nexport type " ++ inferredName s.name (style.exportName s.name) ++ " = ").toList <:+:
      (style.declaration s).toList

theorem declares (style : ModuleStyle) (s : Schema) : style.Declares s := by
  have hconstant : ("export const " ++ style.exportName s.name ++ " = ").toList <+:
      (style.schemaText s).toList := by
    unfold schemaText
    generalize (if s.isEmpty then "\x7b\x7d" else _) = body
    exact ⟨(style.ns ++ ".object(" ++ body ++ ");").toList, by simp⟩
  constructor
  · rw [declaration_eq]
    split
    · refine hconstant.trans ?_
      simp only [String.toList_append, List.append_assoc]
      exact List.prefix_append _ _
    · exact hconstant
  · intro htypes
    rw [declaration_eq, if_pos htypes]
    refine ⟨(style.schemaText s).toList, (style.ns ++ ".infer<typeof " ++
      style.exportName s.name ++ ">;").toList, ?_⟩
    simp

/-- The names that the constants of structs with given names are exported under. -/
def exportedConstants (style : ModuleStyle) (names : List String) : List String :=
  names.map style.exportName

/-- The names that the types of structs with given names are exported under. -/
def exportedTypes (style : ModuleStyle) (names : List String) : List String :=
  if style.types then names.map fun a => inferredName a (style.exportName a) else []

variable {names : List String}

theorem mem_exportedTypes {name : String} : name ∈ style.exportedTypes names ↔
    style.types = true ∧ ∃ a ∈ names, inferredName a (style.exportName a) = name := by
  unfold exportedTypes
  split
  · next h => simp [h]
  · next h => simp [h]

theorem isBareName_exported (hsuffix : ∀ c ∈ style.suffix.toList, isIdentifierRest c = true)
    (h : ∀ a ∈ names, isBareName a = true) :
    ∀ name ∈ style.exportedConstants names ++ style.exportedTypes names,
      isBareName name = true := by
  rw [List.forall_mem_append]
  constructor
  · exact List.forall_mem_map.mpr fun a ha => isBareName_exportName hsuffix (h a ha)
  · intro name hname
    obtain ⟨-, a, ha, rfl⟩ := mem_exportedTypes.mp hname
    exact isBareName_inferredName style (h a ha)

theorem constants_declarable_iff (hsuffix : ∀ c ∈ style.suffix.toList, isIdentifierRest c = true)
    (h : ∀ a ∈ names, isBareName a = true) :
    (∀ name ∈ style.exportedConstants names, isDeclarable name = true) ↔
      ∀ word ∈ takenNames, style.hasSuffix word = true → ∀ a ∈ names, a ≠ word ∧
        ¬ (style.hasSuffix a = false ∧ a ++ style.suffix = word) := by
  rw [exportedConstants, List.forall_mem_map]
  constructor
  · intro hall word hword hw a ha
    rw [← not_or]
    intro hor
    have hname := (exportName_eq_iff hsuffix (h a ha) word).mpr ⟨hw, hor⟩
    have hfree := (isDeclarable_iff (isBareName_exportName hsuffix (h a ha))).mp (hall a ha)
    exact hfree (hname ▸ hword)
  · intro hall a ha
    rw [isDeclarable_iff (isBareName_exportName hsuffix (h a ha))]
    intro hword
    obtain ⟨hw, hor⟩ := (exportName_eq_iff hsuffix (h a ha) _).mp rfl
    exact not_or.mpr (hall _ hword hw a ha) hor

theorem types_declarable_iff (h : ∀ a ∈ names, isBareName a = true) :
    (∀ name ∈ style.exportedTypes names, isDeclarable name = true) ↔
      (style.types = true → ∀ a ∈ names, a ∈ takenNames → style.hasSuffix a = true) := by
  constructor
  · intro hall htypes a ha hword
    rw [← Bool.not_eq_false]
    intro hno
    have hdeclarable := hall _ (mem_exportedTypes.mpr ⟨htypes, a, ha, rfl⟩)
    rw [isDeclarable_iff (isBareName_inferredName style (h a ha))] at hdeclarable
    exact hdeclarable ((inferredName_mem_taken style a).mpr ⟨hword, hno⟩)
  · intro hall name hname
    obtain ⟨htypes, a, ha, rfl⟩ := mem_exportedTypes.mp hname
    rw [isDeclarable_iff (isBareName_inferredName style (h a ha)), inferredName_mem_taken]
    rintro ⟨hword, hno⟩
    rw [hall htypes a ha hword] at hno
    cases hno

end ModuleStyle

/-- A module of derived structs exports identifiers: for each struct a constant and, if types are
wanted, a type. All constants can be declared exactly if no struct has a taken name that ends in the
suffix or becomes one with the suffix that it lacks, and all types exactly if no struct has a taken
name without the suffix. -/
theorem exports_declarable_iff {options : Options} {source : String} {derived : Derived}
    {style : ModuleStyle} (hd : deriveSource options source = .ok derived)
    (hne : derived.structs ≠ [])
    (hsuffix : ∀ c ∈ style.suffix.toList, isIdentifierRest c = true) :
    let names := structNames derived.structs
    style.emit derived.structs = .ok (style.textOf derived.structs) ∧
      (∀ s ∈ derived.structs, style.Declares s) ∧
      (style.isTidy = true →
        constNames (style.textOf derived.structs) = style.exportedConstants names ∧
          typeNames (style.textOf derived.structs) = style.exportedTypes names) ∧
      (∀ name ∈ style.exportedConstants names ++ style.exportedTypes names,
        isBareName name = true) ∧
      ((∀ name ∈ style.exportedConstants names, isDeclarable name = true) ↔
        ∀ word ∈ takenNames, style.hasSuffix word = true → ∀ a ∈ names, a ≠ word ∧
          ¬ (style.hasSuffix a = false ∧ a ++ style.suffix = word)) ∧
      ((∀ name ∈ style.exportedTypes names, isDeclarable name = true) ↔
        (style.types = true → ∀ a ∈ names, a ∈ takenNames → style.hasSuffix a = true)) := by
  have hnames : ∀ a ∈ structNames derived.structs, isBareName a = true := by
    obtain ⟨d, hp, rfl⟩ := parse_of_deriveSource hd
    exact List.forall_mem_map.mpr fun s hm => (named_structs hp hm).1
  refine ⟨style.emit_eq hne, fun s _ => style.declares s, fun hs => ?_,
    ModuleStyle.isBareName_exported hsuffix hnames,
    ModuleStyle.constants_declarable_iff hsuffix hnames, ModuleStyle.types_declarable_iff hnames⟩
  obtain ⟨-, text, hemit, hconsts, htypes⟩ := exports_eq hd hne hsuffix hs
  obtain rfl := Except.ok.inj ((style.emit_eq hne).symm.trans hemit)
  exact ⟨hconsts, htypes⟩

/-- A struct whose name is taken in another case, under its own name. -/
theorem exports_declarable_class :
    ∃ derived, deriveSource {} "struct Class\x7b1:bool x\x7d" = .ok derived ∧
      structNames derived.structs = ["Class"] ∧
      ModuleStyle.emit { suffix := "", types := true } derived.structs =
        .ok (ModuleStyle.textOf { suffix := "", types := true } derived.structs) ∧
      (∀ name ∈ constNames (ModuleStyle.textOf { suffix := "", types := true } derived.structs),
        isDeclarable name = true) ∧
      ∀ name ∈ typeNames (ModuleStyle.textOf { suffix := "", types := true } derived.structs),
        isDeclarable name = true := by
  have hnames : sourceNames? "struct Class\x7b1:bool x\x7d" = some ["Class"] := by decide +kernel
  obtain ⟨derived, hd, hne, hnames⟩ := sourceNames?_eq_some hnames
  have hsuffix : ∀ c ∈ (ModuleStyle.suffix { suffix := "", types := true }).toList,
      isIdentifierRest c = true := List.all_eq_true.mp (by decide)
  obtain ⟨hemit, -, hread, -, hconsts, htypes⟩ :=
    @exports_declarable_iff {} _ derived { suffix := "", types := true } hd hne hsuffix
  obtain ⟨hconstNames, htypeNames⟩ := hread (by decide)
  refine ⟨derived, hd, hnames, hemit, ?_, ?_⟩
  · rw [hconstNames]
    refine hconsts.mpr ?_
    rw [hnames]
    decide +kernel
  · rw [htypeNames]
    refine htypes.mpr ?_
    rw [hnames]
    decide +kernel

/-- A reserved word for a struct: its type is declared under it and, without a suffix, its
constant. -/
theorem not_declarable_class :
    isDeclarable "class" = false ∧
      ∃ derived, deriveSource {} "struct A\x7b\x7dstruct class\x7b\x7d" = .ok derived ∧
        (∃ text, ModuleStyle.emit { types := true } derived.structs = .ok text ∧
          "class" ∈ typeNames text) ∧
        ∃ text, ModuleStyle.emit { suffix := "" } derived.structs = .ok text ∧
          "class" ∈ constNames text := by
  have hnames : sourceNames? "struct A\x7b\x7dstruct class\x7b\x7d" = some ["A", "class"] := by
    decide +kernel
  obtain ⟨derived, hd, hne, hnames⟩ := sourceNames?_eq_some hnames
  obtain ⟨-, text, ht, -, htypes⟩ := @exports_eq {} _ derived { types := true } hd hne
    (List.all_eq_true.mp (by decide)) (by decide)
  obtain ⟨-, text', ht', hconsts, -⟩ := @exports_eq {} _ derived { suffix := "" } hd hne
    (List.all_eq_true.mp (by decide)) (by decide)
  refine ⟨by decide, derived, hd, ⟨text, ht, ?_⟩, text', ht', ?_⟩
  · rw [htypes, hnames]
    decide +kernel
  · rw [hconsts, hnames]
    decide +kernel

end SchemaGen
