import SchemaGen.Proofs.Cli.Run
import SchemaGen.Proofs.Files.Discovery

namespace SchemaGen

open Files Files.Tree Files.Path

variable {t t' : Tree} {c : Config} {sources : List Source} {report : Report}
  {args : List String} {input : String} {config filter : Option String} {overrides : Overrides}

/-- What a generation that ends well has found, converted and written. -/
theorem generation_of_exit (ht : t.isProper = true)
    (hargs : Cli.command? args = some (.generate input false config filter overrides))
    (hexit : (Cli.execute args t).exitCode = 0) :
    ∃ c sources report, Config.load t config = .ok c ∧ t.scanWith input true filter = .ok sources ∧
      (c.override overrides).generate t (t.isFile input) sources = .ok report ∧
      report.modules ≠ [] ∧ t.writeAll? report.modules = some (Cli.execute args t).tree ∧
      ∀ g ∈ report.modules, (∃ t₁ : Tree, t₁.readText g.output = .ok g.content) ∧
        (Cli.execute args t).tree.readText g.output = .ok g.content := by
  obtain ⟨w, hrun, htree⟩ := Cli.after_run hargs hexit
  obtain ⟨c, w₁, hload, hrun⟩ := Cli.after_bind_ok.mp hrun
  obtain ⟨hconfig, rfl⟩ := Cli.after_loadConfig.mp hload
  obtain ⟨sources, report, hscan, hreport, hne, hwrite⟩ := Cli.after_generate hrun
  rw [← htree] at hwrite
  have hwritten := writeAll?_written hwrite
  have hread := writeAll?_readText hwrite fun g hg h hh he =>
    modules_unique ht hscan hreport hwritten hg hh he
  exact ⟨c, sources, report, hconfig, hscan, hreport, hne, hwrite,
    fun g hg => ⟨hwritten g hg, hread g hg⟩⟩

/-- The last name at the place of a module has its extension. -/
theorem isModulePlace_of_outputs (ht : t.isProper = true)
    (hscan : t.scanWith input true filter = .ok sources) (hdir : t.isFile input = false)
    (hreport : c.generate t false sources = .ok report)
    (hw : ∀ g ∈ report.modules, ∃ t₁ : Tree, t₁.readText g.output = .ok g.content) {key : Key}
    {home : Key} (h : Outputs home report.modules key) : IsModulePlace key := by
  obtain ⟨g, hg, rfl⟩ := h
  obtain ⟨front, stem, hplaced⟩ := placed_of_mem ht hscan hdir hreport hg (hw g hg)
  refine ⟨keyOf home c.dir ++ front, stem ++ "." ++ "ts", ?_, ?_⟩
  · rw [hplaced.key, List.append_assoc]
  · exact extension?_name hplaced.names.proper_moduleName hplaced.names.stem (by decide)

/-- No module goes to the place of a source. -/
theorem not_outputs_source (ht : t.isProper = true)
    (hscan : t.scanWith input true filter = .ok sources) (hdir : t.isFile input = false)
    (hreport : c.generate t false sources = .ok report)
    (hw : ∀ g ∈ report.modules, ∃ t₁ : Tree, t₁.readText g.output = .ok g.content) {f : Source}
    (hf : f ∈ sources) (home : Key) : ¬ Outputs home report.modules (keyOf home f.path) := by
  intro h
  obtain ⟨names, front, stem, hnames, rfl⟩ := exists_source ht hscan hdir hf
  obtain ⟨hkey, hsource⟩ := hnames.keyOf_descend home input
  refine not_isModulePlace _ ?_ (hkey ▸ isModulePlace_of_outputs ht hscan hdir hreport hw h)
  rw [hsource]
  decide

/-- Whether a path leads below a directory. -/
def IsBelow (home : Key) (dir path : String) : Prop :=
  ∃ names, names ≠ [] ∧ (∀ n ∈ names, ProperName n) ∧ keyOf home path = keyOf home dir ++ names

theorem fileName?_upward {names front : List String} {stem : String}
    (h : SourceNames names front stem) :
    fileName? (ofParts names) = some "..thrift" ↔ stem = "." := by
  have hup : "..thrift" = "." ++ "." ++ "thrift" := rfl
  rw [h.eq, fileName?_ofParts h.proper_last h.front_no_slash, hup, Option.some.injEq,
    String.append_left_inj, String.append_left_inj]

/-- The path for a module is below the directory and has the extension of modules, unless the source
is a step upwards without its own. -/
theorem destination_below_iff {names front : List String} {stem : String}
    (h : SourceNames names front stem) (home : Key) :
    (IsBelow home c.dir (c.destination false (ofParts names)) ∧
        extension? (c.destination false (ofParts names)) = some "ts") ↔ stem ≠ "." := by
  rw [extension?_destination h]
  constructor
  · intro hbelow hdot
    rw [if_pos hdot] at hbelow
    cases hbelow.2
  · intro hdot
    obtain ⟨habsolute, hsteps⟩ := destination_eq (c := c) h
    rw [moduleStep_of_ne hdot] at hsteps
    exact ⟨⟨_, List.concat_ne_nil _ front, h.proper_module,
      keyOf_names habsolute hsteps h.proper_module home⟩, if_neg hdot⟩

/-- What a generation changes that takes one tree to another. -/
structure WritesModules (c : Config) (t t' : Tree) (sources : List Source) (report : Report) :
    Prop where
  /-- The path of every module holds the text that its source gives. -/
  holds : ∀ g ∈ report.modules, c.content t g.source = .ok g.content ∧
    t'.readText g.output = .ok g.content
  /-- A module goes below the directory for modules and has their extension. -/
  named : ∀ g ∈ report.modules, IsBelow t.home c.dir g.output ∧ extension? g.output = some "ts"
  /-- No two modules lead to one place. -/
  places : ∀ g ∈ report.modules, ∀ h ∈ report.modules, t'.locate g.output = t'.locate h.output →
    g = h
  /-- Different sources have different paths for their modules, also those without structs. -/
  apart : ∀ f ∈ sources, ∀ f' ∈ sources, f ≠ f' →
    same (c.destination false f.relative) (c.destination false f'.relative) = false
  /-- Sources are texts and stay as they are. -/
  sources : ∀ f ∈ sources, ∃ text, t.readText f.path = .ok text ∧ t'.readText f.path = .ok text
  /-- All other places stay as they are, but for directories that are made on the way to modules. -/
  rest : ∀ key, (∀ g ∈ report.modules, t'.locate g.output ≠ .ok key) →
    t'.node? key = t.node? key ∨
      (t.node? key = none ∧ t'.node? key = some .directory ∧
        ∃ g ∈ report.modules, OnWay t.home g.output key)

theorem locate_of_readText {path text : String} (h : t.readText path = .ok text) :
    t.locate path = .ok (keyOf t.home path) := by
  obtain ⟨key, hlocate, -⟩ := readText_eq_ok.mp h
  rw [hlocate, keyOf_of_locate hlocate]

/-- What a generation from a directory writes. -/
theorem writesModules_of_edits (ht : t.isProper = true)
    (hscan : t.scanWith input true filter = .ok sources) (hdir : t.isFile input = false)
    (hreport : c.generate t false sources = .ok report)
    (hw : ∀ g ∈ report.modules, ∃ t₁ : Tree, t₁.readText g.output = .ok g.content)
    (hread : ∀ g ∈ report.modules, t'.readText g.output = .ok g.content)
    (hedits : Edits (OnWays t.home report.modules) (Outputs t.home report.modules) t t') :
    WritesModules c t t' sources report where
  holds g hg := by
    obtain ⟨f, -, hconvert⟩ := mem_generate hreport g hg
    obtain ⟨hsource, -, hcontent⟩ := convert_eq_ok hconvert
    exact ⟨hsource ▸ hcontent, hread g hg⟩
  named g hg := by
    obtain ⟨front, stem, hplaced⟩ := placed_of_mem ht hscan hdir hreport hg (hw g hg)
    rw [(convert_eq_ok hplaced.convert).2.1]
    exact (destination_below_iff hplaced.names t.home).mpr hplaced.stem_ne
  places g hg h hh he := by
    rw [locate_of_readText (hread g hg), locate_of_readText (hread h hh)] at he
    rw [← hdir] at hreport
    exact modules_unique ht hscan hreport hw hg hh (Except.ok.inj he)
  apart f hf f' hf' hne := by
    obtain ⟨names, front, stem, hnames, rfl⟩ := exists_source ht hscan hdir hf
    obtain ⟨names', front', stem', hnames', rfl⟩ := exists_source ht hscan hdir hf'
    rw [← Bool.not_eq_true]
    intro hsame
    obtain rfl := names_of_same hnames hnames' hsame
    exact hne rfl
  sources f hf := by
    obtain ⟨text, htext⟩ := readText_of_generate hreport hf
    have hfree := not_outputs_source ht hscan hdir hreport hw hf t.home
    exact ⟨text, htext, hedits.changes.readText htext hfree⟩
  rest key hkey := by
    rcases hedits.changes.places key with hsame | ⟨hmade, hnodes⟩ | ⟨⟨g, hg, rfl⟩, -⟩
    · exact .inl hsame
    · exact .inr ⟨hnodes.1, hnodes.2, hmade⟩
    · have hplace := locate_of_readText (hread g hg)
      rw [hedits.changes.home] at hplace
      exact absurd hplace (hkey g hg)

/-- A generation from a directory that ends well leaves every module at its path and touches nothing
else. The path for the module of each source is below the directory for modules and has their
extension, exactly if no source has the name that is a step upwards without its own extension. -/
theorem generation_writes_modules (ht : t.isProper = true)
    (hargs : Cli.command? args = some (.generate input false config filter overrides))
    (hdir : t.isFile input = false) (hexit : (Cli.execute args t).exitCode = 0) :
    ∃ given c sources report, Config.load t config = .ok given ∧ c = given.override overrides ∧
      t.scanWith input true filter = .ok sources ∧ c.generate t false sources = .ok report ∧
      report.modules ≠ [] ∧ WritesModules c t (Cli.execute args t).tree sources report ∧
      ((∀ f ∈ sources, IsBelow t.home c.dir (c.destination false f.relative) ∧
          extension? (c.destination false f.relative) = some "ts") ↔
        ∀ f ∈ sources, fileName? f.relative ≠ some "..thrift") := by
  obtain ⟨given, sources, report, hload, hscan, hreport, hne, hwrite, hmodules⟩ :=
    generation_of_exit ht hargs hexit
  rw [hdir] at hreport
  refine ⟨given, _, sources, report, hload, rfl, hscan, hreport, hne,
    writesModules_of_edits ht hscan hdir hreport (fun g hg => (hmodules g hg).1)
      (fun g hg => (hmodules g hg).2) (writeAll?_edits hwrite), ?_⟩
  generalize given.override overrides = c
  refine forall₂_congr fun f hf => ?_
  obtain ⟨names, front, stem, hnames, rfl⟩ := exists_source ht hscan hdir hf
  rw [destination_below_iff hnames t.home]
  exact (fileName?_upward hnames).not.symm

/-- The files after the modules of some sources are written. -/
def written? (c : Config) (t : Tree) (single : Bool) (sources : List Source) : Option Tree := do
  let report ← (c.generate t single sources).toOption
  if report.modules.isEmpty then none else t.writeAll? report.modules

/-- A generation ends well where the modules of its sources can be written. -/
theorem exitCode_of_written {given : Config}
    (hargs : Cli.command? args = some (.generate input false config filter overrides))
    (hload : Config.load t config = .ok given) (hscan : t.scanWith input true filter = .ok sources)
    (h : (written? (given.override overrides) t (t.isFile input) sources).isSome = true) :
    (Cli.execute args t).exitCode = 0 := by
  unfold written? at h
  cases hreport : (given.override overrides).generate t (t.isFile input) sources with
  | error e =>
    rw [hreport] at h
    cases h
  | ok report =>
    rw [hreport] at h
    obtain ⟨t', hwrites⟩ := Option.isSome_iff_exists.mp h
    simp only [Except.toOption, Option.bind_eq_bind, Option.bind_some] at hwrites
    split at hwrites
    · cases hwrites
    · next hne =>
      obtain ⟨results, -, hafter⟩ := Cli.writes_of_writeAll? hwrites
      rw [Cli.execute_generation hargs hload hscan hreport (mt List.isEmpty_iff.mpr hne) hafter]

/-- Sources of one name in two directories, one with several dots, and a module that is there. -/
def nested : Tree :=
  { entries := [(["idl"], .directory), (["idl", "a.b.thrift"], .text "struct B \x7b\x7d"),
      (["idl", "a.thrift"], .text "struct A \x7b\x7d"), (["idl", "sub"], .directory),
      (["idl", "sub", "a.thrift"], .text "struct C \x7b\x7d"), (["w"], .directory),
      (["w", "out"], .directory), (["w", "out", "a.ts"], .text "old")]
    home := ["w"] }

theorem scan_nested : nested.scanWith "../idl" true none = .ok
    [⟨"../idl/a.b.thrift", "a.b.thrift"⟩, ⟨"../idl/a.thrift", "a.thrift"⟩,
      ⟨"../idl/sub/a.thrift", "sub/a.thrift"⟩] :=
  scan_of_sorted (by decide +kernel : nested.locate "../idl" = .ok ["idl"]) (by decide +kernel)
    (by decide +kernel : nested.sourcesBelow true "../idl" ["idl"] =
      [["a.b.thrift"], ["a.thrift"], ["sub", "a.thrift"]])
    (by decide) (by decide +kernel) (by decide +kernel)

theorem generation_writes_modules_nested :
    ∃ c sources report, nested.scanWith "../idl" true none = .ok sources ∧
      c.generate nested false sources = .ok report ∧ report.modules ≠ [] ∧
      WritesModules c nested
        (Cli.execute ["generate", "--input", "../idl", "--output", "/w/out"] nested).tree
        sources report := by
  have hargs : Cli.command? ["generate", "--input", "../idl", "--output", "/w/out"] =
      some (.generate "../idl" false none none { dir := some "/w/out" }) := by decide +kernel
  have hload : Config.load nested none = .ok {} := by decide +kernel
  have hexit := exitCode_of_written hargs hload scan_nested (by decide +kernel)
  obtain ⟨-, c, sources, report, -, -, hscan, hreport, hne, hwrites, -⟩ :=
    generation_writes_modules (by decide) hargs (by decide +kernel) hexit
  exact ⟨c, sources, report, hscan, hreport, hne, hwrites⟩

/-- A source whose name is a step upwards without its extension, and another. -/
def upward : Tree :=
  { entries := [(["w", "..thrift"], .text "enum E \x7b X \x7d"),
      (["w", "a.thrift"], .text "struct A \x7b\x7d")]
    home := ["w"] }

/-- The path for the module of a source may be a step upwards, without an extension. -/
theorem destination_upward :
    upward.isProper = true ∧ upward.isFile "." = false ∧
    (Cli.execute ["generate"] upward).exitCode = 0 ∧
    Config.load upward none = .ok {} ∧
    ∃ sources report, upward.scanWith "." true none = .ok sources ∧
      Config.generate {} upward false sources = .ok report ∧
      ∃ f ∈ sources, Config.destination {} false f.relative = "./generated/.." ∧
        ¬ IsBelow upward.home "./generated" "./generated/.." ∧
        extension? "./generated/.." = none := by
  have hargs : Cli.command? ["generate"] = some (.generate "." false none none {}) := by
    decide +kernel
  have hload : Config.load upward none = .ok {} := by decide +kernel
  have hscan : upward.scanWith "." true none =
      .ok [⟨"./..thrift", "..thrift"⟩, ⟨"./a.thrift", "a.thrift"⟩] :=
    scan_of_sorted (by decide +kernel : upward.locate "." = .ok ["w"]) (by decide +kernel)
      (by decide +kernel : upward.sourcesBelow true "." ["w"] = [["..thrift"], ["a.thrift"]])
      (by decide) (by decide +kernel) (by decide +kernel)
  have hexit := exitCode_of_written hargs hload hscan (by decide +kernel)
  obtain ⟨c, sources, report, hc, hsources, hreport, -⟩ :=
    generation_of_exit (by decide) hargs hexit
  obtain rfl := Except.ok.inj (hload.symm.trans hc)
  obtain rfl := Except.ok.inj (hscan.symm.trans hsources)
  have hdir : upward.isFile "." = false := by decide +kernel
  rw [hdir] at hreport
  refine ⟨by decide, hdir, hexit, hload, _, report, hscan, hreport, ⟨"./..thrift", "..thrift"⟩,
    List.mem_cons_self, by decide +kernel, ?_, by decide +kernel⟩
  rintro ⟨names, -, -, hkey⟩
  have hplaces : keyOf upward.home "./generated/.." = ["w"] ∧
      keyOf upward.home "./generated" = ["w", "generated"] := by decide +kernel
  rw [hplaces.1, hplaces.2] at hkey
  cases hkey

end SchemaGen
