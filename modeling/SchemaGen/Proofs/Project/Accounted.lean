import SchemaGen.Proofs.Derive.Structs
import SchemaGen.Proofs.Project.Generate

namespace SchemaGen

open Idl Text Files Files.Tree

variable {t : Tree} {c : Config} {sources : List Source} {report : Report} {f : Source}
  {name : String}

/-- The names of all structs of a document. -/
def namesOfStructs (d : Document) : List String :=
  d.definitions.filterMap fun
    | .struct b => some b.name
    | _ => none

theorem mem_namesOfStructs {d : Document} :
    name ∈ namesOfStructs d ↔ ∃ b, .struct b ∈ d.definitions ∧ b.name = name := by
  rw [namesOfStructs, List.mem_filterMap]
  constructor
  · intro ⟨e, he, hname⟩
    cases e with
    | struct b => exact ⟨b, he, Option.some.inj hname⟩
    | _ => cases hname
  · intro ⟨b, hb, hname⟩
    exact ⟨_, hb, congrArg some hname⟩

/-- A struct with a usable name has a schema of this name. -/
theorem exists_schema (options : Options) {d : Document} (h : name ∈ namesOfStructs d)
    (hname : isBareName name = true) :
    ∃ s ∈ (deriveDocument options d).structs, s.name = name := by
  obtain ⟨b, hb, rfl⟩ := mem_namesOfStructs.mp h
  refine ⟨structOf options b, ?_, (structOf_eq options b).1⟩
  rw [deriveDocument_structs]
  exact List.mem_filterMap.mpr ⟨_, hb, if_pos hname⟩

/-- A document has schemas exactly if one of its structs has a usable name. -/
theorem structs_ne_nil_iff (options : Options) (d : Document) :
    (deriveDocument options d).structs ≠ [] ↔ ∃ n ∈ namesOfStructs d, isBareName n = true := by
  constructor
  · intro hne
    obtain ⟨s, hs⟩ := List.exists_mem_of_ne_nil _ hne
    obtain ⟨b, hb, hname, -⟩ := mem_structs hs
    exact ⟨b.name, mem_namesOfStructs.mpr ⟨b, hb, rfl⟩, hname⟩
  · intro ⟨n, hn, hname⟩
    obtain ⟨s, hs, -⟩ := exists_schema options hn hname
    exact List.ne_nil_of_mem hs

/-- A struct without a usable name is warned of. -/
theorem unusableName_mem_warnings (options : Options) {d : Document} (h : name ∈ namesOfStructs d)
    (hname : isBareName name = false) :
    .unusableName name ∈ (deriveDocument options d).warnings := by
  obtain ⟨b, hb, rfl⟩ := mem_namesOfStructs.mp h
  obtain ⟨headers, definitions⟩ := d
  obtain ⟨front, back, rfl⟩ := List.append_of_mem hb
  have hwarn : (deriveDocument options ⟨[], [.struct b]⟩).warnings = [.unusableName b.name] := by
    simp only [deriveDocument, Session.definitions, Session.definition, hname]
    rfl
  rw [← List.singleton_append, deriveDocument_append options headers [] [],
    deriveDocument_append options [] [] [], hwarn]
  exact List.mem_append_right _ (List.mem_append_left _ List.mem_cons_self)

/-- Whether a struct of a source is accounted for: a module of the source exports it, or a warning
of the source names it. -/
def Accounted (c : Config) (report : Report) (f : Source) (name : String) : Prop :=
  (∃ g ∈ report.modules, g.source = f.path ∧ c.style.exportName name ∈ g.schemas) ∨
    (f.path, .unusableName name) ∈ report.warnings

theorem Accounted.exists_module (h : Accounted c report f name) :
    ∃ g ∈ report.modules, g.source = f.path := by
  rcases h with ⟨g, hg, hsource, -⟩ | hwarning
  · exact ⟨g, hg, hsource⟩
  · obtain ⟨g, hg, hwarning⟩ := List.mem_flatMap.mp hwarning
    obtain ⟨w, -, he⟩ := List.mem_map.mp hwarning
    exact ⟨g, hg, congrArg Prod.fst he⟩

/-- In a generation that succeeds all sources are read, and a struct of a source is accounted for
exactly if some struct of this source has a usable name. -/
theorem structs_accounted {single : Bool} (h : c.generate t single sources = .ok report) :
    ∀ f ∈ sources, ∃ text d, t.readText f.path = .ok text ∧ Idl.parse text = .ok d ∧
      ∀ name ∈ namesOfStructs d,
        (Accounted c report f name ↔ ∃ n ∈ namesOfStructs d, isBareName n = true) := by
  intro f hf
  obtain ⟨derived, hderived, hplace⟩ := generate_forall h f hf
  obtain ⟨text, d, htext, hparse, rfl⟩ := deriveFile_eq_ok hderived
  refine ⟨text, d, htext, hparse, fun name hm => ?_⟩
  rw [← structs_ne_nil_iff c.options]
  constructor
  · intro haccounted
    obtain ⟨g, hg, hsource⟩ := haccounted.exists_module
    obtain ⟨f', -, hconvert⟩ := mem_generate h g hg
    -- another source of the same path has the same structs
    have hsame : f'.path = f.path := (convert_eq_ok hconvert).1.symm.trans hsource
    rcases convert_of_derived single (hsame ▸ hderived) with ⟨-, hnone⟩ | ⟨hne, -⟩
    · cases hnone.symm.trans hconvert
    · exact hne
  · intro hne
    obtain ⟨-, g, hg, hconvert⟩ := hplace.resolve_left fun hskipped => hne hskipped.1
    rcases convert_of_derived single hderived with ⟨hnil, -⟩ | ⟨-, content, hmodule⟩
    · exact absurd hnil hne
    · obtain rfl := Except.ok.inj (hmodule.symm.trans hconvert)
      cases hname : isBareName name with
      | true =>
        obtain ⟨s, hs, rfl⟩ := exists_schema c.options hm hname
        exact .inl ⟨_, hg, rfl, List.mem_map_of_mem hs⟩
      | false =>
        have hwarning := unusableName_mem_warnings c.options hm hname
        exact .inr (List.mem_flatMap.mpr ⟨_, hg, List.mem_map_of_mem hwarning⟩)

/-- A source without a usable name, and one with a usable name and another. -/
def dotted : Tree :=
  { entries := [(["w", "a.thrift"], .text "struct a.b \x7b\x7d"),
      (["w", "b.thrift"], .text "struct B \x7b\x7d struct c.d \x7b\x7d")]
    home := ["w"] }

def dottedSources : List Source := [⟨"./a.thrift", "a.thrift"⟩, ⟨"./b.thrift", "b.thrift"⟩]

theorem generate_dotted : ∃ report, Config.generate {} dotted false dottedSources = .ok report ∧
    report.modules.map (·.source) = ["./b.thrift"] := by
  have h : (Config.generate {} dotted false dottedSources).toOption.map
      (·.modules.map (·.source)) = some ["./b.thrift"] := by decide +kernel
  cases hreport : Config.generate {} dotted false dottedSources with
  | error e =>
    rw [hreport] at h
    cases h
  | ok report =>
    rw [hreport] at h
    exact ⟨report, rfl, Option.some.inj h⟩

/-- The names of the structs that are declared at a path. -/
def namesOfStructsAt? (t : Tree) (path : String) : Option (List String) :=
  (t.readText path).toOption.bind fun text => (Idl.parse text).toOption.map namesOfStructs

theorem namesOfStructs_eq {path text : String} {d : Document} {names : List String}
    (htext : t.readText path = .ok text) (hparse : Idl.parse text = .ok d)
    (h : namesOfStructsAt? t path = some names) : namesOfStructs d = names := by
  rw [namesOfStructsAt?, htext, Except.toOption, Option.bind_some, hparse] at h
  exact Option.some.inj h

theorem structs_accounted_dotted :
    ∃ report, Config.generate {} dotted false dottedSources = .ok report ∧
      Accounted {} report ⟨"./b.thrift", "b.thrift"⟩ "B" ∧
      Accounted {} report ⟨"./b.thrift", "b.thrift"⟩ "c.d" := by
  obtain ⟨report, hreport, -⟩ := generate_dotted
  obtain ⟨text, d, htext, hparse, haccounted⟩ := structs_accounted hreport
    ⟨"./b.thrift", "b.thrift"⟩ (by decide)
  rw [namesOfStructs_eq htext hparse (by decide +kernel :
    namesOfStructsAt? dotted "./b.thrift" = some ["B", "c.d"])] at haccounted
  have husable : ∃ n ∈ ["B", "c.d"], isBareName n = true := ⟨"B", by decide, by decide +kernel⟩
  exact ⟨report, hreport, (haccounted "B" (by decide)).mpr husable,
    (haccounted "c.d" (by decide)).mpr husable⟩

/-- A struct of a source without usable names is exported nowhere, and nothing warns of it. -/
theorem not_accounted_dotted :
    ∃ report text d, Config.generate {} dotted false dottedSources = .ok report ∧
      dotted.readText "./a.thrift" = .ok text ∧ Idl.parse text = .ok d ∧ "a.b" ∈ namesOfStructs d ∧
      ¬ Accounted {} report ⟨"./a.thrift", "a.thrift"⟩ "a.b" := by
  obtain ⟨report, hreport, hmodules⟩ := generate_dotted
  obtain ⟨derived, hderived, -⟩ :=
    generate_forall hreport ⟨"./a.thrift", "a.thrift"⟩ (by decide)
  obtain ⟨text, d, htext, hparse, -⟩ := deriveFile_eq_ok hderived
  have hnames := namesOfStructs_eq htext hparse (by decide +kernel :
    namesOfStructsAt? dotted "./a.thrift" = some ["a.b"])
  refine ⟨report, text, d, hreport, htext, hparse, hnames ▸ List.mem_cons_self, fun h => ?_⟩
  obtain ⟨g, hg, hsource⟩ := h.exists_module
  have hmem : g.source ∈ ["./b.thrift"] := hmodules ▸ List.mem_map_of_mem hg
  rw [hsource] at hmem
  exact absurd hmem (by decide)

end SchemaGen
