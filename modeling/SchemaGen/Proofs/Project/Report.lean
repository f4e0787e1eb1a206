import SchemaGen.Proofs.Emit.Exports
import SchemaGen.Proofs.Project.Generate

namespace SchemaGen

open Text Files

/-- A row that is read off two others, each from its front to its end. -/
inductive Interleaved {α : Type} : List α → List α → List α → Prop where
  | nil : Interleaved [] [] []
  | left {a : α} {as bs cs : List α} (h : Interleaved as bs cs) :
      Interleaved (a :: as) bs (a :: cs)
  | right {b : α} {as bs cs : List α} (h : Interleaved as bs cs) :
      Interleaved as (b :: bs) (b :: cs)

variable {t : Tree} {c : Config} {single : Bool} {sources rest : List Source} {report : Report}
  {f : Source} {g : Generated} {derived : Derived} {e : SourceError}

namespace Config

/-- Whether a source can be read, if only to find no structs in it. -/
def Loads (c : Config) (t : Tree) (f : Source) : Prop :=
  ∃ derived, deriveFile t c.options f.path = .ok derived

/-- The structs of a source, none if it cannot be read. -/
def structsOf (c : Config) (t : Tree) (f : Source) : List Schema :=
  match deriveFile t c.options f.path with
  | .ok derived => derived.structs
  | .error _ => []

/-- Whether a source is the first that cannot be read, and what is wrong with it. -/
def FirstFault (c : Config) (t : Tree) (sources : List Source) (e : SourceError) : Prop :=
  ∃ front f back, sources = front ++ f :: back ∧ (∀ g ∈ front, c.Loads t g) ∧
    deriveFile t c.options f.path = .error e

/-- What a module has to do with its source. -/
structure Gives (c : Config) (t : Tree) (single : Bool) (f : Source) (g : Generated) : Prop where
  source : g.source = f.path
  output : g.output = c.destination single f.relative
  content : c.content t f.path = .ok g.content
  schemas : g.schemas = (c.structsOf t f).map fun s => c.style.exportName s.name
  /-- What the module declares, read off its text. -/
  declared : (∀ ch ∈ c.suffix.toList, isIdentifierRest ch = true) → constNames g.content = g.schemas

/-- What a report has to do with the sources of its run. -/
structure Accounts (c : Config) (t : Tree) (single : Bool) (sources : List Source)
    (report : Report) : Prop where
  order : Interleaved (report.modules.map (·.source)) report.skipped (sources.map (·.path))
  skipped : report.skipped = (sources.filter fun f => (c.structsOf t f).isEmpty).map (·.path)
  modules : List.Forall₂ (c.Gives t single)
    (sources.filter fun f => !(c.structsOf t f).isEmpty) report.modules
  total : report.schemaTotal = (sources.flatMap (c.structsOf t)).length

theorem isTidy_style (c : Config) : c.style.isTidy = true := by
  have hns : c.style.ns = "z" := rfl
  have hfrom : c.style.importFrom = "zod" := rfl
  have hindent : c.style.indent = "  " := rfl
  rw [ModuleStyle.isTidy, hns, hfrom, hindent]
  decide

theorem structsOf_of_derived (h : deriveFile t c.options f.path = .ok derived) :
    c.structsOf t f = derived.structs := by
  rw [structsOf, h]

/-- The text of a module declares a constant for each struct. -/
theorem constNames_content (hsuffix : ∀ ch ∈ c.suffix.toList, isIdentifierRest ch = true)
    (h : deriveFile t c.options f.path = .ok derived) (hne : derived.structs ≠ [])
    {content : String} (hcontent : c.content t f.path = .ok content) :
    constNames content = derived.structs.map fun s => c.style.exportName s.name := by
  obtain ⟨source, d, -, hparse, rfl⟩ := deriveFile_eq_ok h
  have hderived := deriveSource_of_parse hparse c.options
  obtain ⟨-, text, hemit, hnames, -⟩ := exports_eq hderived hne hsuffix c.isTidy_style
  have htext : c.content t f.path = .ok text := by
    rw [Config.content, moduleOf, h]
    exact hemit
  obtain rfl := Except.ok.inj (htext.symm.trans hcontent)
  rw [hnames, structNames, List.map_map]
  rfl

theorem gives_of_convert (h : c.convert t single f = .ok g)
    (hderived : deriveFile t c.options f.path = .ok derived) (hne : derived.structs ≠ []) :
    c.Gives t single f g := by
  obtain ⟨hsource, houtput, hcontent⟩ := convert_eq_ok h
  rcases convert_of_derived single hderived with ⟨hnil, -⟩ | ⟨-, text, hconvert⟩
  · exact absurd hnil hne
  · obtain rfl := Except.ok.inj (hconvert.symm.trans h)
    refine ⟨hsource, houtput, hcontent, by rw [structsOf_of_derived hderived], fun hsuffix => ?_⟩
    exact constNames_content hsuffix hderived hne hcontent

theorem generate_of_fault (h : deriveFile t c.options f.path = .error e) :
    c.generate t single (f :: rest) = .error e := by
  have hconvert : c.convert t single f = .error e := by
    rw [Config.convert, h]
    rfl
  have hne : e ≠ .noStructs := by
    rintro rfl
    exact deriveFile_ne_noStructs c.options f.path h
  rw [Config.generate, hconvert]
  split
  · next hg => cases hg
  · next hg => exact absurd (Except.error.inj hg) hne
  · next hg =>
    obtain rfl := Except.error.inj hg
    rfl

theorem generate_of_empty (h : deriveFile t c.options f.path = .ok derived)
    (hnil : derived.structs = []) :
    c.generate t single (f :: rest) =
      (c.generate t single rest).map fun r => { r with skipped := f.path :: r.skipped } := by
  rcases convert_of_derived single h with ⟨-, hconvert⟩ | ⟨hne, -⟩
  · rw [Config.generate, hconvert]
  · exact absurd hnil hne

theorem generate_of_structs (h : deriveFile t c.options f.path = .ok derived)
    (hne : derived.structs ≠ []) :
    ∃ g, c.Gives t single f g ∧ c.generate t single (f :: rest) =
      (c.generate t single rest).map fun r => { r with modules := g :: r.modules } := by
  rcases convert_of_derived single h with ⟨hnil, -⟩ | ⟨-, text, hconvert⟩
  · exact absurd hnil hne
  · refine ⟨_, gives_of_convert hconvert h hne, ?_⟩
    rw [Config.generate, hconvert]

/-- What is read first leaves the failure of what comes later. -/
theorem generate_cons_error (hloads : c.Loads t f) (h : c.generate t single rest = .error e) :
    c.generate t single (f :: rest) = .error e := by
  obtain ⟨derived, hderived⟩ := hloads
  by_cases hnil : derived.structs = []
  · rw [generate_of_empty hderived hnil, h]
    rfl
  · obtain ⟨g, -, hgenerate⟩ := generate_of_structs hderived hnil
    rw [hgenerate, h]
    rfl

theorem schemaTotal_eq (r : Report) :
    r.schemaTotal = (r.modules.flatMap (·.schemas)).length := by
  have hfrom (n : Nat) (modules : List Generated) :
      modules.foldl (fun n g => n + g.schemas.length) n =
        n + (modules.flatMap (·.schemas)).length := by
    induction modules generalizing n with
    | nil => rfl
    | cons g modules ih =>
      rw [List.foldl_cons, ih, List.flatMap_cons, List.length_append, Nat.add_assoc]
  rw [Report.schemaTotal, hfrom, Nat.zero_add]

theorem generate_of_firstFault (h : c.FirstFault t sources e) :
    c.generate t single sources = .error e := by
  obtain ⟨front, f, back, rfl, hfront, hfault⟩ := h
  induction front with
  | nil => exact generate_of_fault hfault
  | cons first front ih =>
    rw [List.forall_mem_cons] at hfront
    exact generate_cons_error hfront.1 (ih hfront.2)

theorem loads_or_firstFault (c : Config) (t : Tree) (sources : List Source) :
    (∀ f ∈ sources, c.Loads t f) ∨ ∃ e, c.FirstFault t sources e := by
  induction sources with
  | nil => exact .inl fun _ hf => absurd hf List.not_mem_nil
  | cons f sources ih =>
    cases hf : deriveFile t c.options f.path with
    | error e => exact .inr ⟨e, [], f, sources, rfl, fun _ hg => absurd hg List.not_mem_nil, hf⟩
    | ok derived =>
      have hloads : c.Loads t f := ⟨derived, hf⟩
      rcases ih with hall | ⟨e, front, g, back, rfl, hfront, hfault⟩
      · exact .inl (List.forall_mem_cons.mpr ⟨hloads, hall⟩)
      · exact .inr ⟨e, f :: front, g, back, rfl, List.forall_mem_cons.mpr ⟨hloads, hfront⟩, hfault⟩

theorem Accounts.cons_empty (h : c.Accounts t single rest report) (hnil : c.structsOf t f = []) :
    c.Accounts t single (f :: rest) { report with skipped := f.path :: report.skipped } where
  order := h.order.right
  skipped := by
    rw [List.filter_cons_of_pos (by rw [hnil]; rfl), List.map_cons, h.skipped]
  modules := by
    rw [List.filter_cons_of_neg (by rw [hnil]; decide)]
    exact h.modules
  total := by
    rw [List.flatMap_cons, hnil, List.nil_append]
    exact h.total

theorem Accounts.cons_structs (h : c.Accounts t single rest report) (hg : c.Gives t single f g)
    (hne : c.structsOf t f ≠ []) :
    c.Accounts t single (f :: rest) { report with modules := g :: report.modules } := by
  have hempty : (c.structsOf t f).isEmpty = false := List.isEmpty_eq_false_iff.mpr hne
  refine ⟨?_, ?_, ?_, ?_⟩
  · rw [List.map_cons, List.map_cons, hg.source]
    exact h.order.left
  · rw [List.filter_cons_of_neg (by rw [hempty]; decide), h.skipped]
  · rw [List.filter_cons_of_pos (by rw [hempty]; rfl)]
    exact .cons hg h.modules
  · have htotal := h.total
    rw [schemaTotal_eq] at htotal ⊢
    rw [List.flatMap_cons, List.flatMap_cons, List.length_append, List.length_append, htotal,
      hg.schemas, List.length_map]

/-- Sources that can all be read have a report that accounts for them. -/
theorem exists_report (h : ∀ f ∈ sources, c.Loads t f) (single : Bool) :
    ∃ report, c.generate t single sources = .ok report ∧ c.Accounts t single sources report := by
  induction sources with
  | nil => exact ⟨⟨[], []⟩, rfl, .nil, rfl, .nil, rfl⟩
  | cons f sources ih =>
    rw [List.forall_mem_cons] at h
    obtain ⟨⟨derived, hderived⟩, hrest⟩ := h
    obtain ⟨report, hreport, haccounts⟩ := ih hrest
    have hstructs := structsOf_of_derived hderived
    by_cases hnil : derived.structs = []
    · refine ⟨_, ?_, haccounts.cons_empty (hstructs.trans hnil)⟩
      rw [generate_of_empty hderived hnil, hreport]
      rfl
    · obtain ⟨g, hg, hgenerate⟩ := generate_of_structs hderived hnil
      refine ⟨_, ?_, haccounts.cons_structs hg (hstructs.symm ▸ hnil)⟩
      rw [hgenerate, hreport]
      rfl

end Config

/-- A run over several sources ends well exactly if all of them can be read, and otherwise with what
is wrong with the first that cannot. Its report accounts for every source in order: one with structs
has a module and any other is skipped. -/
theorem generate_accounts (c : Config) (t : Tree) (single : Bool) (sources : List Source) :
    ((∃ report, c.generate t single sources = .ok report) ↔ ∀ f ∈ sources, c.Loads t f) ∧
    (∀ e, c.generate t single sources = .error e ↔ c.FirstFault t sources e) ∧
    ∀ report, c.generate t single sources = .ok report → c.Accounts t single sources report := by
  rcases c.loads_or_firstFault t sources with hall | ⟨e, hfault⟩
  · obtain ⟨report, hreport, haccounts⟩ := c.exists_report hall single
    refine ⟨⟨fun _ => hall, fun _ => ⟨report, hreport⟩⟩, fun e => ⟨fun he => ?_, fun he => ?_⟩,
      fun report' hreport' => ?_⟩
    · cases hreport.symm.trans he
    · cases hreport.symm.trans (Config.generate_of_firstFault he)
    · obtain rfl := Except.ok.inj (hreport.symm.trans hreport')
      exact haccounts
  · have herror : c.generate t single sources = .error e := Config.generate_of_firstFault hfault
    refine ⟨⟨fun ⟨report, hreport⟩ => ?_, fun hall => ?_⟩, fun e' => ⟨fun he => ?_, fun he => ?_⟩,
      fun report hreport => ?_⟩
    · cases herror.symm.trans hreport
    · obtain ⟨report, hreport, -⟩ := c.exists_report hall single
      cases herror.symm.trans hreport
    · obtain rfl := Except.error.inj (herror.symm.trans he)
      exact hfault
    · exact Config.generate_of_firstFault he
    · cases herror.symm.trans hreport

/-- Sources with structs, without any, and with a text that is none. -/
def mixed : Tree :=
  { entries := [(["w", "a.thrift"], .text "struct A \x7b\x7d"),
      (["w", "b.thrift"], .text "enum E \x7b X \x7d"),
      (["w", "c.thrift"], .text "struct C \x7b\x7d struct DSchema \x7b\x7d"),
      (["w", "d.thrift"], .text "struct \x7b")]
    home := ["w"] }

def mixedSources : List Source :=
  [⟨"./a.thrift", "a.thrift"⟩, ⟨"./b.thrift", "b.thrift"⟩, ⟨"./c.thrift", "c.thrift"⟩]

theorem generate_accounts_mixed :
    (∃ report, Config.generate {} mixed false mixedSources = .ok report ∧
      report.skipped = ["./b.thrift"] ∧ Config.Accounts {} mixed false mixedSources report) ∧
    ∃ e, Config.generate {} mixed false (mixedSources ++ [⟨"./d.thrift", "d.thrift"⟩]) = .error e ∧
      Config.FirstFault {} mixed (mixedSources ++ [⟨"./d.thrift", "d.thrift"⟩]) e := by
  constructor
  · have h : (Config.generate {} mixed false mixedSources).toOption.map (·.skipped) =
        some ["./b.thrift"] := by decide +kernel
    obtain ⟨-, -, haccounts⟩ := generate_accounts {} mixed false mixedSources
    cases hreport : Config.generate {} mixed false mixedSources with
    | error e =>
      rw [hreport] at h
      cases h
    | ok report =>
      rw [hreport] at h
      exact ⟨report, rfl, Option.some.inj h, haccounts report hreport⟩
  · have h : (Config.generate {} mixed false
        (mixedSources ++ [⟨"./d.thrift", "d.thrift"⟩])).toOption.isNone = true := by decide +kernel
    obtain ⟨-, hfault, -⟩ :=
      generate_accounts {} mixed false (mixedSources ++ [⟨"./d.thrift", "d.thrift"⟩])
    cases herror : Config.generate {} mixed false
        (mixedSources ++ [⟨"./d.thrift", "d.thrift"⟩]) with
    | error e => exact ⟨e, rfl, (hfault e).mp herror⟩
    | ok report =>
      rw [herror] at h
      cases h

end SchemaGen
