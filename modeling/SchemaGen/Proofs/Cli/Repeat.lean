import SchemaGen.Proofs.Cli.Validate

namespace SchemaGen

open Files Files.Tree Files.Path

variable {t : Tree} {args : List String} {input : String} {config filter : Option String}
  {overrides : Overrides}

theorem map_path_of_settled {modules : List Generated} {results : List Written}
    (h : List.Forall₂ Cli.Settled modules results) :
    results.map Written.path = modules.map (·.output) := by
  induction h with
  | nil => rfl
  | cons hr _ ih =>
    rw [List.map_cons, List.map_cons, ih]
    rcases hr with rfl | rfl <;> rfl

/-- A generation from a directory that ends well does nothing when it is run again: it finds the
same sources and tells of each module that it is unchanged. No module may have gone to the place of
the configuration, and nothing may have come into being where the run looks for its configuration or
for the rules that hide sources. -/
theorem generation_repeats (ht : t.isProper = true) (hr : t.isRooted = true)
    (hargs : Cli.command? args = some (.generate input false config filter overrides))
    (hfile : t.isFile input = false) (hexit : (Cli.execute args t).exitCode = 0) :
    ∃ given sources report results, Config.load t config = .ok given ∧
      t.scanWith input true filter = .ok sources ∧
      (given.override overrides).generate t false sources = .ok report ∧
      List.Forall₂ Cli.Settled report.modules results ∧
      (Cli.execute args t).output =
        Cli.headText sources report ++ String.join (results.map Cli.reportText) ∧
      ((∀ g ∈ report.modules, (Cli.execute args t).tree.samePlace g.output
          (config.getD Config.defaultPath) = false) →
        (t.has (config.getD Config.defaultPath) = false →
          (Cli.execute args t).tree.has (config.getD Config.defaultPath) = false) →
        Undisturbed t (Cli.execute args t).tree (keyOf t.home input) →
        (Cli.execute args t).tree.scanWith input true filter = .ok sources ∧
        Cli.execute args (Cli.execute args t).tree =
          ⟨0, Cli.headText sources report ++
              String.join (results.map fun r => Cli.reportText (.unchanged r.path)),
            "", (Cli.execute args t).tree⟩) := by
  obtain ⟨given, sources, report, hload, hscan, hreport, hne, hwrite, hmodules⟩ :=
    generation_of_exit ht hargs hexit
  obtain ⟨results, hsettled, hafter⟩ := Cli.writes_of_writeAll? hwrite
  have hfirst := Cli.execute_generation hargs hload hscan hreport hne hafter
  have hdir := isDirectory_of_scanWith hscan hfile
  have hwritten : ∀ g ∈ report.modules, ∃ t₁ : Tree, t₁.readText g.output = .ok g.content :=
    fun g hg => (hmodules g hg).1
  have hread : ∀ g ∈ report.modules, (Cli.execute args t).tree.readText g.output = .ok g.content :=
    fun g hg => (hmodules g hg).2
  have hedits := writeAll?_edits hwrite
  rw [hfile] at hreport
  refine ⟨given, sources, report, results, hload, hscan, hreport, hsettled,
    congrArg (·.output) hfirst, fun hfree habsent hu => ?_⟩
  generalize (Cli.execute args t).tree = t' at *
  have hscan' : t'.scanWith input true filter = .ok sources := by
    rw [scanWith_of_edits hedits
      (fun _ => isModulePlace_of_outputs ht hscan hfile hreport hwritten) hr hdir hu, hscan]
  have hload' := load_of_outputs hedits.changes hread hfree habsent hload
  have hreport' :
      (given.override overrides).generate t' (t'.isFile input) sources = .ok report := by
    rw [isFile_of_directory (hedits.changes.isDirectory hdir), ← hreport]
    refine generate_congr fun f hf => ?_
    obtain ⟨text, htext, htext'⟩ :=
      (writesModules_of_edits ht hscan hfile hreport hwritten hread hedits).sources f hf
    rw [htext, htext']
  refine ⟨hscan', ?_⟩
  have hpaths : results.map (fun r => Cli.reportText (.unchanged r.path)) =
      report.modules.map fun g => Cli.reportText (.unchanged g.output) := by
    have hmap := congrArg (List.map fun path => Cli.reportText (.unchanged path))
      (map_path_of_settled hsettled)
    rwa [List.map_map, List.map_map] at hmap
  rw [hpaths]
  exact Cli.execute_generation hargs hload' hscan' hreport' hne
    fun w hw => Cli.writes_of_held hread hw

/-- Whether something is true of all modules of a generation. -/
def forModules? (t : Tree) (input : String) (config filter : Option String) (overrides : Overrides)
    (p : Generated → Bool) : Option Bool := do
  let c ← (Config.load t config).toOption
  let sources ← (t.scanWith input true filter).toOption
  let report ← ((c.override overrides).generate t (t.isFile input) sources).toOption
  pure (report.modules.all p)

theorem of_forModules? {given : Config} {sources : List Source} {report : Report}
    {p : Generated → Bool} (hload : Config.load t config = .ok given)
    (hscan : t.scanWith input true filter = .ok sources)
    (hreport : (given.override overrides).generate t (t.isFile input) sources = .ok report)
    (h : forModules? t input config filter overrides p = some true) :
    ∀ g ∈ report.modules, p g = true := by
  simp only [forModules?, hload, hscan, hreport, Except.toOption, Option.bind_eq_bind,
    Option.bind_some, Option.pure_def, Option.some.injEq] at h
  exact List.all_eq_true.mp h

/-- A repository above the working directory, with a source and another that is ignored. -/
def ruled : Tree :=
  { entries := [([".git"], .directory), ([".gitignore"], .text "b.thrift"), (["idl"], .directory),
      (["idl", "a.thrift"], .text "struct A \x7b\x7d"),
      (["idl", "b.thrift"], .text "struct B \x7b\x7d")]
    home := ["w"] }

def ruledLine : List String := ["generate", "--input", "../idl", "--output", "/idl"]

theorem generation_repeats_ruled :
    ∃ sources, ruled.scanWith "../idl" true none = .ok sources ∧
      (Cli.execute ruledLine ruled).tree.scanWith "../idl" true none = .ok sources ∧
      (Cli.execute ruledLine (Cli.execute ruledLine ruled).tree).exitCode = 0 ∧
      (Cli.execute ruledLine (Cli.execute ruledLine ruled).tree).tree =
        (Cli.execute ruledLine ruled).tree := by
  have hfile : ruled.isFile "../idl" = false := by decide +kernel
  obtain ⟨given, sources, report, results, hload, hscan, hreport, -, -, hagain⟩ :=
    @generation_repeats ruled ruledLine "../idl" none none { dir := some "/idl" } (by decide)
      (by decide +kernel) (by decide +kernel) hfile (by decide +kernel)
  rw [← hfile] at hreport
  have hfree := of_forModules? hload hscan hreport (by decide +kernel :
    forModules? ruled "../idl" none none { dir := some "/idl" } (fun g =>
      !(Cli.execute ruledLine ruled).tree.samePlace g.output Config.defaultPath) = some true)
  obtain ⟨hfound, hexecute⟩ := hagain (fun g hg => by simpa using hfree g hg) (by decide +kernel)
    ⟨by decide +kernel, by decide +kernel⟩
  rw [hexecute]
  exact ⟨sources, hscan, hfound, rfl, rfl⟩

/-- A generation in the working directory that ends well, with no module at the place of its
configuration, and does not end well when it is run again. -/
structure EndsOnce (t : Tree) (args : List String) (overrides : Overrides) : Prop where
  proper : t.isProper = true
  rooted : t.isRooted = true
  command : Cli.command? args = some (.generate "." false none none overrides)
  directory : t.isFile "." = false
  ends : (Cli.execute args t).exitCode = 0
  free : ∃ given sources report, Config.load t none = .ok given ∧
    t.scanWith "." true none = .ok sources ∧
    (given.override overrides).generate t (t.isFile ".") sources = .ok report ∧
    ∀ g ∈ report.modules,
      (Cli.execute args t).tree.samePlace g.output Config.defaultPath = false
  fails : (Cli.execute args (Cli.execute args t).tree).exitCode = 1

theorem endsOnce_of_forModules? (ht : t.isProper = true) (hr : t.isRooted = true)
    (hargs : Cli.command? args = some (.generate "." false none none overrides))
    (hdir : t.isFile "." = false) (hexit : (Cli.execute args t).exitCode = 0)
    (hfree : forModules? t "." none none overrides (fun g =>
      !(Cli.execute args t).tree.samePlace g.output Config.defaultPath) = some true)
    (hfails : (Cli.execute args (Cli.execute args t).tree).exitCode = 1) :
    EndsOnce t args overrides := by
  obtain ⟨given, sources, report, hload, hscan, hreport, -⟩ := generation_of_exit ht hargs hexit
  have hmodules := of_forModules? hload hscan hreport hfree
  exact ⟨ht, hr, hargs, hdir, hexit,
    ⟨given, sources, report, hload, hscan, hreport, fun g hg => by simpa using hmodules g hg⟩,
    hfails⟩

/-- A source that would be ignored in a repository. -/
def unruled : Tree :=
  { entries := [(["w", ".gitignore"], .text "*.thrift"),
      (["w", "a.thrift"], .text "struct A \x7b\x7d")]
    home := ["w"] }

/-- A repository whose data are found by a way through the directory for modules. -/
def pointing : Tree :=
  { entries := [(["w", ".git"], .text "gitdir: generated/.."), (["w", "commondir"], .text "main"),
      (["w", "main"], .directory), (["w", "main", "info"], .directory),
      (["w", "main", "info", "exclude"], .text "*.thrift"),
      (["w", "a.thrift"], .text "struct A \x7b\x7d")]
    home := ["w"] }

/-- The directories that a run makes may be a configuration that cannot be read, or make rules hold
that hide the sources. -/
theorem generation_ends_once :
    EndsOnce lone ["generate", "--output", "thrift-zod.toml"] { dir := some "thrift-zod.toml" } ∧
    EndsOnce unruled ["generate", "--output", ".git"] { dir := some ".git" } ∧
    EndsOnce pointing ["generate"] {} := by
  refine ⟨endsOnce_of_forModules? ?_ ?_ ?_ ?_ ?_ ?_ ?_,
    endsOnce_of_forModules? ?_ ?_ ?_ ?_ ?_ ?_ ?_, endsOnce_of_forModules? ?_ ?_ ?_ ?_ ?_ ?_ ?_⟩
  all_goals decide +kernel

end SchemaGen
