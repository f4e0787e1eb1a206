import SchemaGen.Proofs.Cli.Arguments
import SchemaGen.Proofs.Cli.Generation

namespace SchemaGen

open Files Files.Tree Files.Path

variable {t t' : Tree} {c : Config} {modules : List Generated}

/-- Whether two paths lead to one place. -/
def Files.Tree.samePlace (t : Tree) (path other : String) : Bool :=
  match t.locate path, t.locate other with
  | .ok key, .ok key' => key == key'
  | _, _ => false

theorem samePlace_of_locate {path other : String} {key : Key} (h : t.locate path = .ok key)
    (k : t.locate other = .ok key) : t.samePlace path other = true := by
  simp [samePlace, h, k]

/-- A text that no module goes to the place of stays as it was. -/
theorem readText_of_outputs {made : Key → Prop} (hc : Changes made (Outputs t.home modules) t t')
    (hread : ∀ g ∈ modules, t'.readText g.output = .ok g.content) {path text : String}
    (hfree : ∀ g ∈ modules, t'.samePlace g.output path = false) (h : t.readText path = .ok text) :
    t'.readText path = .ok text := by
  refine hc.readText h ?_
  rintro ⟨g, hg, hkey⟩
  obtain ⟨key, hlocate, -⟩ := readText_eq_ok.mp h
  obtain ⟨key', hlocate', -⟩ := readText_eq_ok.mp (hread g hg)
  rw [keyOf_of_locate hlocate, ← hc.home, keyOf_of_locate hlocate'] at hkey
  have hsame := samePlace_of_locate hlocate' (hkey ▸ hc.locate hlocate)
  rw [hfree g hg] at hsame
  cases hsame

/-- The configuration stays as it was, if no module goes to its place and it is there or nothing
comes there. -/
theorem load_of_outputs {made : Key → Prop} (hc : Changes made (Outputs t.home modules) t t')
    (hread : ∀ g ∈ modules, t'.readText g.output = .ok g.content) {config : Option String}
    (hfree : ∀ g ∈ modules, t'.samePlace g.output (config.getD Config.defaultPath) = false)
    (habsent : t.has (config.getD Config.defaultPath) = false →
      t'.has (config.getD Config.defaultPath) = false)
    (h : Config.load t config = .ok c) : Config.load t' config = .ok c := by
  unfold Config.load at h ⊢
  generalize config.getD Config.defaultPath = path at *
  cases hhas : t.has path with
  | false => simpa [hhas, habsent hhas] using h
  | true =>
    obtain ⟨key, hlocate⟩ := has_iff.mp hhas
    have hhas' : t'.has path = true := has_iff.mpr ⟨key, hc.locate hlocate⟩
    simp only [hhas, hhas', Bool.not_true, Bool.false_eq_true, if_false] at h ⊢
    cases htext : t.readText path with
    | error fault =>
      rw [htext] at h
      cases h
    | ok text =>
      rw [htext] at h
      rw [readText_of_outputs hc hread hfree htext]
      exact h

/-- What is on the way to a path below a directory is the working directory, or below that one. -/
theorem onWay_below {home key : Key} {path first : String} {names : List String}
    (hrelative : isAbsolute path = false) (hsteps : steps path = "." :: first :: names)
    (hp : ∀ n ∈ first :: names, ProperName n) (h : OnWay home path key) :
    key = home ∨ home ++ [first] <+: key := by
  obtain ⟨front, hfront, rfl⟩ := h
  have hstart : start home path = home := by
    rw [start, hrelative]
    rfl
  rw [hstart]
  rw [hsteps] at hfront
  cases front with
  | nil => exact .inl rfl
  | cons dot front =>
    obtain ⟨rfl, hnames⟩ := List.cons_prefix_cons.mp hfront
    have hdot : stepTo home "." = home := rfl
    rw [List.foldl_cons, hdot, foldl_stepTo fun n hn => hp n (hnames.subset hn)]
    cases front with
    | nil => exact .inl (List.append_nil home)
    | cons n front =>
      obtain ⟨rfl, -⟩ := List.cons_prefix_cons.mp hnames
      exact .inr ⟨front, by rw [List.append_assoc, List.singleton_append]⟩

theorem below_generated {input : String} {filter : Option String} {sources : List Source}
    {report : Report} (ht : t.isProper = true) (hs : t.scanWith input true filter = .ok sources)
    (hr : Config.generate {} t (t.isFile input) sources = .ok report)
    (hw : ∀ g ∈ report.modules, ∃ t₁ : Tree, t₁.readText g.output = .ok g.content) {g : Generated}
    (hg : g ∈ report.modules) {home key : Key} (h : OnWay home g.output key) :
    key = home ∨ home ++ ["generated"] <+: key := by
  have hgenerated : ProperName "generated" := isProperName_iff.mp (by decide)
  have hdir : isAbsolute "./generated" = false ∧ steps "./generated" = [".", "generated"] := by
    decide +kernel
  obtain ⟨f, hf, hconvert⟩ := mem_generate hr g hg
  obtain ⟨t₁, hread⟩ := hw g hg
  rw [(convert_eq_ok hconvert).2.1] at h hread
  rcases scanWith_eq ht hs with ⟨hfile, -⟩ | ⟨hfile, hnames⟩
  · -- a single file has the file name of the configuration
    have hsingle : Config.destination {} true f.relative = join "./generated" "schemas.ts" := rfl
    have hsteps : isAbsolute (join "./generated" "schemas.ts") = false ∧
        steps (join "./generated" "schemas.ts") = [".", "generated", "schemas.ts"] := by
      decide +kernel
    have hschemas : ProperName "schemas.ts" := isProperName_iff.mp (by decide)
    rw [hfile, hsingle] at h
    exact onWay_below hsteps.1 hsteps.2 (by simp [hgenerated, hschemas]) h
  · obtain ⟨names, front, stem, hsource, rfl⟩ := hnames f hf
    rw [hfile] at h hread
    obtain ⟨-, habsolute, hsteps⟩ := destination_of_readText hsource hread
    refine onWay_below (habsolute.trans hdir.1) (hsteps.trans (by rw [hdir.2]; rfl)) ?_ h
    exact List.forall_mem_cons.mpr ⟨hgenerated, hsource.proper_module⟩

/-- What is found at the default path of the configuration. -/
theorem has_default_iff : t.has Config.defaultPath = true ↔
    (t.node? (t.home ++ [Config.defaultPath])).isSome = true := by
  have hpath : checkPath Config.defaultPath = .ok () ∧ start t.home Config.defaultPath = t.home ∧
      steps Config.defaultPath = [Config.defaultPath] ∧ endsInSlash Config.defaultPath = false := by
    refine ⟨?_, rfl, ?_, ?_⟩ <;> decide +kernel
  have hname : Config.defaultPath.utf8ByteSize ≤ longestName := by decide +kernel
  have hstep : stepTo t.home Config.defaultPath = t.home ++ [Config.defaultPath] := rfl
  have hhome : t.isDirectoryAt t.home = true := isDirectoryAt_above List.prefix_rfl
  simp only [has_iff, locate_eq_ok, hpath, walk_cons, Enters, hname, hstep, hhome]
  simp [walk]

/-- With the default configuration nothing is made or written at its own place. -/
theorem default_stays_absent (hc : Changes (OnWays t.home modules) (Outputs t.home modules) t t')
    (hbelow : ∀ g ∈ modules, ∀ key, OnWay t.home g.output key →
      key = t.home ∨ t.home ++ ["generated"] <+: key)
    (h : t.has Config.defaultPath = false) : t'.has Config.defaultPath = false := by
  have haway {g : Generated} (hg : g ∈ modules) :
      ¬ OnWay t.home g.output (t.home ++ [Config.defaultPath]) := by
    intro hway
    rcases hbelow g hg _ hway with hhome | hprefix
    · simp at hhome
    · have hname := (List.prefix_append_right_inj t.home).mp hprefix
      revert hname
      decide
  rw [← Bool.not_eq_true, has_default_iff, Option.not_isSome_iff_eq_none] at h ⊢
  rw [hc.home]
  refine hc.node_none h ?_ ?_
  · intro ⟨g, hg, hway⟩
    exact haway hg hway
  · intro ⟨g, hg, hkey⟩
    exact haway hg (hkey ▸ onWay_keyOf t.home g.output)

/-- What a generation that ends well converts and writes. -/
theorem generated_of_exit {args : List String} {input : String} {config filter : Option String}
    (ht : t.isProper = true)
    (hargs : Cli.command? args = some (.generate input false config filter {}))
    (hexit : (Cli.execute args t).exitCode = 0) :
    ∃ c sources report, Config.load t config = .ok c ∧ t.scanWith input true filter = .ok sources ∧
      c.generate t (t.isFile input) sources = .ok report ∧
      Changes (OnWays t.home report.modules) (Outputs t.home report.modules) t
        (Cli.execute args t).tree ∧
      ∀ g ∈ report.modules, (∃ t₁ : Tree, t₁.readText g.output = .ok g.content) ∧
        (Cli.execute args t).tree.readText g.output = .ok g.content := by
  obtain ⟨c, sources, report, hconfig, hscan, hreport, -, hwrite, hmodules⟩ :=
    generation_of_exit ht hargs hexit
  exact ⟨c, sources, report, hconfig, hscan, hreport, (writeAll?_edits hwrite).changes, hmodules⟩

theorem ne_empty_of_readText {path text : String} (h : t.readText path = .ok text) : path ≠ "" := by
  rintro rfl
  obtain ⟨key, hlocate, -⟩ := readText_eq_ok.mp h
  exact absurd (locate_eq_ok.mp hlocate).1 (by decide)

/-- Every module of a generation that ends well is valid afterwards, if no module went to the place
of the configuration or of a source, and if a given configuration that was not there did not come
into being. -/
theorem generated_validates {args : List String} {input : String} {config filter : Option String}
    (ht : t.isProper = true)
    (hargs : Cli.command? args = some (.generate input false config filter {}))
    (hexit : (Cli.execute args t).exitCode = 0) :
    ∃ c sources report, Config.load t config = .ok c ∧ t.scanWith input true filter = .ok sources ∧
      c.generate t (t.isFile input) sources = .ok report ∧
      (∀ g ∈ report.modules, (Cli.execute args t).tree.readText g.output = .ok g.content) ∧
      ((∀ g ∈ report.modules,
          (Cli.execute args t).tree.samePlace g.output (config.getD Config.defaultPath) = false) →
        (∀ g ∈ report.modules, ∀ f ∈ sources,
          (Cli.execute args t).tree.samePlace g.output f.path = false) →
        (∀ path ∈ config, t.has path = false → (Cli.execute args t).tree.has path = false) →
        ∀ g ∈ report.modules,
          (∃ line, Cli.command? line = some (.validate g.output g.source config)) ∧
          ∀ line, Cli.command? line = some (.validate g.output g.source config) →
            (Cli.execute line (Cli.execute args t).tree).exitCode = 0) := by
  obtain ⟨c, sources, report, hload, hscan, hreport, hchanges, hmodules⟩ :=
    generated_of_exit ht hargs hexit
  generalize (Cli.execute args t).tree = t' at *
  have hread : ∀ g ∈ report.modules, t'.readText g.output = .ok g.content :=
    fun g hg => (hmodules g hg).2
  refine ⟨c, sources, report, hload, hscan, hreport, hread, fun hconfig hinput habsent g hg => ?_⟩
  obtain ⟨f, hf, hconvert⟩ := mem_generate hreport g hg
  obtain ⟨hsource, -, hcontent⟩ := convert_eq_ok hconvert
  obtain ⟨text, htext⟩ := readText_of_content hcontent
  have htext' : t'.readText f.path = .ok text :=
    readText_of_outputs hchanges hread (fun g hg => hinput g hg f hf) htext
  constructor
  · refine ⟨_, Cli.command?_validateLine (ne_empty_of_readText (hread g hg)) ?_
      (Cli.config_ne_empty hargs)⟩
    exact hsource ▸ ne_empty_of_readText htext
  · intro line hline
    have hload' : Config.load t' config = .ok c := by
      refine load_of_outputs hchanges hread hconfig (fun hnone => ?_) hload
      cases config with
      | some path => exact habsent path rfl hnone
      | none =>
        obtain rfl : c = {} := by
          rw [Config.load, if_pos (by rw [hnone]; rfl)] at hload
          exact (Except.ok.inj hload).symm
        exact default_stays_absent hchanges (fun g hg key => below_generated ht hscan hreport
          (fun g hg => (hmodules g hg).1) hg) hnone
    have hcontent' : c.content t' g.source = .ok g.content := by
      rw [hsource, content_congr (htext'.trans htext.symm), hcontent]
    exact Cli.exitCode_of_after hline (Cli.after_validate (hread g hg) hload' hcontent')

/-- What a generation converts: the paths of its sources, and the source and the output of each
module. -/
def conversion? (t : Tree) (input : String) (config : Option String) :
    Option (List String × List (String × String)) := do
  let c ← (Config.load t config).toOption
  let sources ← (t.scanWith input true none).toOption
  let report ← (c.generate t (t.isFile input) sources).toOption
  pure (sources.map (·.path), report.modules.map fun g => (g.source, g.output))

theorem of_conversion? {input : String} {config : Option String} {sources : List Source}
    {report : Report} (hload : Config.load t config = .ok c)
    (hscan : t.scanWith input true none = .ok sources)
    (hreport : c.generate t (t.isFile input) sources = .ok report) {source output : String}
    (h : conversion? t input config = some ([source], [(source, output)])) :
    (∀ f ∈ sources, f.path = source) ∧
      (∀ g ∈ report.modules, g.source = source ∧ g.output = output) ∧ report.modules ≠ [] := by
  simp only [conversion?, hload, hscan, hreport, Except.toOption, Option.bind_eq_bind,
    Option.bind_some, Option.pure_def, Option.some.injEq, Prod.mk.injEq] at h
  obtain ⟨hsources, hmodules⟩ := h
  refine ⟨fun f hf => ?_, fun g hg => ?_, fun hnil => ?_⟩
  · exact List.mem_singleton.mp (hsources ▸ List.mem_map_of_mem hf)
  · exact Prod.mk.inj (List.mem_singleton.mp (hmodules ▸ List.mem_map_of_mem hg))
  · rw [hnil] at hmodules
    cases hmodules

/-- A directory with a source, and a configuration away from the working directory. -/
def project : Tree :=
  { entries := [(["w", "idl"], .directory),
      (["w", "idl", "a.thrift"], .text "struct A \x7b 1: bool x \x7d"),
      (["c.toml"], .text "[output]\ndir = '../out'\n[naming]\nschema_suffix = 'Type'\n")]
    home := ["w"] }

theorem generated_validates_project :
    (Cli.execute (Cli.validateLine "../out/a.ts" "/w/idl/a.thrift" (some "/c.toml"))
      (Cli.execute ["generate", "--input", "/w/idl", "--config", "/c.toml"]
        project).tree).exitCode = 0 := by
  obtain ⟨c, sources, report, hload, hscan, hreport, -, hvalid⟩ :=
    @generated_validates project ["generate", "--input", "/w/idl", "--config", "/c.toml"] "/w/idl"
      (some "/c.toml") none (by decide +kernel) (by decide +kernel) (by decide +kernel)
  obtain ⟨hsources, hmodules, hne⟩ := of_conversion? hload hscan hreport
    (by decide +kernel : conversion? project "/w/idl" (some "/c.toml") =
      some (["/w/idl/a.thrift"], [("/w/idl/a.thrift", "../out/a.ts")]))
  obtain ⟨g, hg⟩ := List.exists_mem_of_ne_nil _ hne
  have hvalid := hvalid (fun g hg => by rw [(hmodules g hg).2]; decide +kernel)
    (fun g hg f hf => by rw [(hmodules g hg).2, hsources f hf]; decide +kernel)
    (fun path hpath habsent => by
      obtain rfl := Option.some.inj hpath
      exact absurd habsent (by decide +kernel)) g hg
  refine hvalid.2 _ ?_
  rw [(hmodules g hg).1, (hmodules g hg).2]
  decide +kernel

/-- A source alone. -/
def lone : Tree := ⟨[(["w", "a.thrift"], .text "struct A \x7b\x7d")], ["w"]⟩

/-- A configuration that was not there, at the place of a directory that the run makes: the run
takes the defaults, and a validation after it cannot read its configuration. -/
theorem generated_not_validates :
    let args := ["generate", "--input", "a.thrift", "--config", "generated"]
    let t := (Cli.execute args lone).tree
    lone.isProper = true ∧
    Cli.command? args = some (.generate "a.thrift" false (some "generated") none {}) ∧
    (Cli.execute args lone).exitCode = 0 ∧
    ∃ c sources report, Config.load lone (some "generated") = .ok c ∧
      lone.scanWith "a.thrift" true none = .ok sources ∧
      c.generate lone (lone.isFile "a.thrift") sources = .ok report ∧ report.modules ≠ [] ∧
      ∀ g ∈ report.modules, t.samePlace g.output "generated" = false ∧
        (∀ f ∈ sources, t.samePlace g.output f.path = false) ∧
        Cli.command? (Cli.validateLine g.output g.source (some "generated")) =
          some (.validate g.output g.source (some "generated")) ∧
        (Cli.execute (Cli.validateLine g.output g.source (some "generated")) t).exitCode = 1 := by
  intro args t
  have hproper : lone.isProper = true := by decide
  have hargs :
      Cli.command? args = some (.generate "a.thrift" false (some "generated") none {}) := by
    decide +kernel
  have hexit : (Cli.execute args lone).exitCode = 0 := by decide +kernel
  refine ⟨hproper, hargs, hexit, ?_⟩
  obtain ⟨c, sources, report, hload, hscan, hreport, -, -⟩ :=
    generated_of_exit hproper hargs hexit
  obtain ⟨hsources, hmodules, hne⟩ := of_conversion? hload hscan hreport
    (by decide +kernel : conversion? lone "a.thrift" (some "generated") =
      some (["a.thrift"], [("a.thrift", "./generated/schemas.ts")]))
  refine ⟨c, sources, report, hload, hscan, hreport, hne, fun g hg => ?_⟩
  rw [(hmodules g hg).1, (hmodules g hg).2]
  refine ⟨by decide +kernel, fun f hf => ?_, by decide +kernel, by decide +kernel⟩
  rw [hsources f hf]
  decide +kernel

end SchemaGen
