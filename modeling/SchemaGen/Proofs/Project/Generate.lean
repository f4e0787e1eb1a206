import SchemaGen.Project.Generate
import SchemaGen.Proofs.Files.Write

namespace SchemaGen

open Files Files.Tree Files.Path

/-- Every entry has a place whose names an entry can have, and is a directory if it stands above the
working directory. -/
def Files.Tree.isProper (t : Tree) : Bool :=
  t.entries.all fun e => e.1.all isProperName && (!e.1.isPrefixOf t.home || e.2 == .directory)

theorem Files.Tree.properName_of_mem {t : Tree} (ht : t.isProper = true) {e : Key × Node}
    (he : e ∈ t.entries) : ∀ n ∈ e.1, ProperName n := by
  intro n hn
  have hentry := List.all_eq_true.mp ht e he
  rw [Bool.and_eq_true] at hentry
  exact isProperName_iff.mp (List.all_eq_true.mp hentry.1 n hn)

/-- The names on the way to a source, the last of them a stem and the extension. -/
structure SourceNames (names front : List String) (stem : String) : Prop where
  eq : names = front ++ [stem ++ "." ++ "thrift"]
  proper : ∀ n ∈ names, ProperName n
  stem : stem ≠ ""

variable {t t' : Tree} {c : Config} {modules : List Generated} {sources : List Source}

theorem fileName?_name {name : String} (h : ProperName name) : fileName? name = some name := by
  have hname := @fileName?_ofParts [] name h (fun _ hm => absurd hm List.not_mem_nil)
  rwa [List.nil_append] at hname

theorem sourceNames_of_isSource {names : List String} (hne : names ≠ [])
    (hp : ∀ n ∈ names, ProperName n) (hs : isSource (names.getLastD "") = true) :
    ∃ front stem, SourceNames names front stem := by
  obtain ⟨front, last, rfl⟩ := (List.eq_nil_or_concat' names).resolve_left hne
  have hlast := hp last (List.mem_append_right front List.mem_cons_self)
  rw [List.getLastD_concat, isSource, extension?, fileName?_name hlast, Option.bind_some,
    beq_iff_eq] at hs
  have hsplit : splitExtension last = ((splitExtension last).1, some "thrift") := Prod.ext rfl hs
  obtain ⟨hname, hstem, -⟩ := splitExtension_eq_some hsplit
  exact ⟨front, _, by rw [← hname], hp, hstem⟩

theorem sourceNames_of_mem {gitignore : Bool} {root : String} {base names : Key}
    (ht : t.isProper = true) (h : names ∈ t.sourcesBelow gitignore root base) :
    ∃ front stem, SourceNames names front stem := by
  obtain ⟨⟨key, node⟩, he, hsome⟩ := List.mem_filterMap.mp h
  dsimp only at hsome
  split at hsome
  · next hkey =>
    obtain rfl := Option.some.inj hsome
    simp only [Bool.and_eq_true, decide_eq_true_eq] at hkey
    obtain ⟨⟨⟨⟨hbase, hlength⟩, -⟩, hsource⟩, -⟩ := hkey
    have hproper : ∀ n ∈ key, ProperName n := properName_of_mem ht he
    have hlast : (key.drop base.length).getLastD "" = key.getLastD "" := by
      rw [List.getLastD_eq_getLast?, List.getLastD_eq_getLast?, List.getLast?_drop,
        if_neg (by omega)]
    refine sourceNames_of_isSource ?_ (fun n hn => hproper n (List.mem_of_mem_drop hn))
      (hlast ▸ hsource)
    exact List.ne_nil_of_length_pos (by rw [List.length_drop]; omega)
  · cases hsome

/-- A file is its own source; a directory has those that lie below it. -/
theorem scan_eq {root : String} {gitignore : Bool} {filter : Option (List GlobToken)}
    (ht : t.isProper = true) (h : t.scan root gitignore filter = .ok sources) :
    (t.isFile root = true ∧ ∃ f, sources = [f]) ∨
      (t.isFile root = false ∧ ∀ f ∈ sources, ∃ names front stem,
        SourceNames names front stem ∧ f = ⟨descend root names, ofParts names⟩) := by
  unfold scan at h
  split at h
  · cases h
  · next key hkey =>
    split at h
    · next hdir =>
      refine .inr ⟨by simp [isFile, hkey, hdir], fun f hf => ?_⟩
      dsimp only at h
      split at h
      · cases h
      · obtain rfl := Except.ok.inj h
        obtain ⟨names, hnames, rfl⟩ := List.mem_map.mp hf
        have hbelow := (List.mem_filter.mp (List.mem_mergeSort.mp hnames)).1
        obtain ⟨front, stem, hnames⟩ := sourceNames_of_mem ht hbelow
        exact ⟨names, front, stem, hnames, rfl⟩
    · next hdir =>
      obtain rfl := Except.ok.inj h
      exact .inl ⟨by simp [isFile, hkey, hdir], _, rfl⟩

theorem scanWith_eq {root : String} {gitignore : Bool} {filter : Option String}
    (ht : t.isProper = true) (h : t.scanWith root gitignore filter = .ok sources) :
    (t.isFile root = true ∧ ∃ f, sources = [f]) ∨
      (t.isFile root = false ∧ ∀ f ∈ sources, ∃ names front stem,
        SourceNames names front stem ∧ f = ⟨descend root names, ofParts names⟩) := by
  unfold scanWith at h
  split at h
  · exact scan_eq ht h
  · split at h
    · cases h
    · exact scan_eq ht h

/-- The sources that are found in a directory lie below it. -/
theorem exists_source {root : String} {gitignore : Bool} {filter : Option String}
    (ht : t.isProper = true) (h : t.scanWith root gitignore filter = .ok sources)
    (hdir : t.isFile root = false) {f : Source} (hf : f ∈ sources) :
    ∃ names front stem, SourceNames names front stem ∧
      f = ⟨descend root names, ofParts names⟩ := by
  rcases scanWith_eq ht h with ⟨hfile, -⟩ | ⟨-, hnames⟩
  · rw [hdir] at hfile
    cases hfile
  · exact hnames f hf

theorem mem_generate {single : Bool} {report : Report}
    (h : c.generate t single sources = .ok report) :
    ∀ g ∈ report.modules, ∃ f ∈ sources, c.convert t single f = .ok g := by
  induction sources generalizing report with
  | nil =>
    obtain rfl := Except.ok.inj h
    exact fun _ hg => absurd hg List.not_mem_nil
  | cons f sources ih =>
    have hlater {rest : Report} (hrest : c.generate t single sources = .ok rest) :
        ∀ g ∈ rest.modules, ∃ f' ∈ f :: sources, c.convert t single f' = .ok g := by
      intro g hg
      obtain ⟨f', hf, hconvert⟩ := ih hrest g hg
      exact ⟨f', List.mem_cons_of_mem f hf, hconvert⟩
    rw [Config.generate] at h
    split at h
    · next first hfirst =>
      obtain ⟨rest, hrest, rfl⟩ := map_eq_ok.mp h
      exact List.forall_mem_cons.mpr ⟨⟨f, List.mem_cons_self, hfirst⟩, hlater hrest⟩
    · obtain ⟨rest, hrest, hreport⟩ := map_eq_ok.mp h
      have hmodules := hlater hrest
      rw [← hreport]
      exact hmodules
    · cases h

/-- A module is what its source gives, and goes where the source says. -/
theorem convert_eq_ok {single : Bool} {f : Source} {g : Generated}
    (h : c.convert t single f = .ok g) :
    g.source = f.path ∧ g.output = c.destination single f.relative ∧
      c.content t f.path = .ok g.content := by
  rw [Config.convert, bind_eq_ok] at h
  obtain ⟨derived, hderived, h⟩ := h
  obtain ⟨content, hcontent, h⟩ := bind_eq_ok.mp h
  obtain rfl := Except.ok.inj h
  exact ⟨rfl, rfl, bind_eq_ok.mpr ⟨derived, hderived, hcontent⟩⟩

theorem deriveFile_eq_ok {options : Options} {path : String} {derived : Derived}
    (h : deriveFile t options path = .ok derived) :
    ∃ text d, t.readText path = .ok text ∧ Idl.parse text = .ok d ∧
      derived = deriveDocument options d := by
  unfold deriveFile deriveFileWith at h
  split at h
  · cases h
  · next text htext =>
    obtain ⟨-, h⟩ := guard_eq_ok.mp h
    unfold deriveWith standardParser at h
    split at h
    · next d hd =>
      split at hd
      · next d' hparse =>
        obtain rfl := Except.ok.inj hd
        exact ⟨text, _, htext, hparse, (Except.ok.inj h).symm⟩
      · cases hd
    · cases h

theorem readText_of_content {path content : String} (h : c.content t path = .ok content) :
    ∃ text, t.readText path = .ok text := by
  rw [Config.content, moduleOf, bind_eq_ok] at h
  obtain ⟨derived, hderived, -⟩ := h
  obtain ⟨text, -, htext, -⟩ := deriveFile_eq_ok hderived
  exact ⟨text, htext⟩

theorem deriveFile_ne_noStructs (options : Options) (path : String) :
    deriveFile t options path ≠ .error .noStructs := by
  unfold deriveFile deriveFileWith deriveWith
  split
  · simp
  · split
    · simp
    · split <;> simp

/-- A source that is read gives a module if it has structs, and none otherwise. -/
theorem convert_of_derived (single : Bool) {f : Source} {derived : Derived}
    (h : deriveFile t c.options f.path = .ok derived) :
    (derived.structs = [] ∧ c.convert t single f = .error .noStructs) ∨
      (derived.structs ≠ [] ∧ ∃ content, c.convert t single f =
        .ok ⟨f.path, c.destination single f.relative, content,
          derived.structs.map fun s => c.style.exportName s.name, derived.warnings⟩) := by
  rw [Config.convert, h]
  obtain ⟨_ | ⟨s, structs⟩, warnings⟩ := derived
  · exact .inl ⟨rfl, rfl⟩
  · exact .inr ⟨List.cons_ne_nil s structs, _, rfl⟩

/-- Every source of a run that ends well is read. It has a module if it has structs, and is skipped
otherwise. -/
theorem generate_forall {single : Bool} {report : Report}
    (h : c.generate t single sources = .ok report) :
    ∀ f ∈ sources, ∃ derived, deriveFile t c.options f.path = .ok derived ∧
      ((derived.structs = [] ∧ f.path ∈ report.skipped) ∨
        (derived.structs ≠ [] ∧ ∃ g ∈ report.modules, c.convert t single f = .ok g)) := by
  induction sources generalizing report with
  | nil => exact fun _ hf => absurd hf List.not_mem_nil
  | cons f sources ih =>
    rw [Config.generate] at h
    rw [List.forall_mem_cons]
    cases hderived : deriveFile t c.options f.path with
    | error e =>
      have hconvert : c.convert t single f = .error e := by
        rw [Config.convert, hderived]
        rfl
      have hne : e ≠ .noStructs := by
        rintro rfl
        exact deriveFile_ne_noStructs _ _ hderived
      rw [hconvert] at h
      split at h
      · next hg => cases hg
      · next hg => exact absurd (Except.error.inj hg) hne
      · cases h
    | ok derived =>
      rcases convert_of_derived single hderived with
        ⟨hnil, hconvert⟩ | ⟨hne, content, hconvert⟩
      · rw [hconvert] at h
        obtain ⟨rest, hrest, rfl⟩ := map_eq_ok.mp h
        refine ⟨⟨derived, rfl, .inl ⟨hnil, List.mem_cons_self⟩⟩, fun f' hf' => ?_⟩
        obtain ⟨derived', hderived', hplace⟩ := ih hrest f' hf'
        exact ⟨derived', hderived', hplace.imp_left (And.imp_right (List.mem_cons_of_mem f.path))⟩
      · rw [hconvert] at h
        obtain ⟨rest, hrest, rfl⟩ := map_eq_ok.mp h
        refine ⟨⟨derived, rfl, .inr ⟨hne, _, List.mem_cons_self, hconvert⟩⟩, fun f' hf' => ?_⟩
        obtain ⟨derived', hderived', hplace⟩ := ih hrest f' hf'
        refine ⟨derived', hderived', hplace.imp_right (And.imp_right ?_)⟩
        rintro ⟨g, hg, hconvert'⟩
        exact ⟨g, List.mem_cons_of_mem _ hg, hconvert'⟩

/-- Every source of a run that ends well is a text. -/
theorem readText_of_generate {single : Bool} {report : Report}
    (h : c.generate t single sources = .ok report) {f : Source} (hf : f ∈ sources) :
    ∃ text, t.readText f.path = .ok text := by
  obtain ⟨derived, hderived, -⟩ := generate_forall h f hf
  obtain ⟨text, -, htext, -⟩ := deriveFile_eq_ok hderived
  exact ⟨text, htext⟩

theorem deriveFile_congr {options : Options} {path : String}
    (h : t'.readText path = t.readText path) :
    deriveFile t' options path = deriveFile t options path := by
  rw [deriveFile, deriveFile, deriveFileWith, deriveFileWith, h]

/-- The text of a module depends on nothing but its source. -/
theorem content_congr {path : String} (h : t'.readText path = t.readText path) :
    c.content t' path = c.content t path := by
  rw [Config.content, Config.content, moduleOf, moduleOf, deriveFile_congr h]

/-- A run depends on nothing but its sources. -/
theorem generate_congr {single : Bool}
    (h : ∀ f ∈ sources, t'.readText f.path = t.readText f.path) :
    c.generate t' single sources = c.generate t single sources := by
  induction sources with
  | nil => rfl
  | cons f sources ih =>
    rw [List.forall_mem_cons] at h
    have hconvert : c.convert t' single f = c.convert t single f := by
      rw [Config.convert, Config.convert, deriveFile_congr h.1]
    rw [Config.generate, Config.generate, hconvert, ih h.2]

section Places

variable {names names' front front' : List String} {stem stem' : String}

theorem SourceNames.front_no_slash (h : SourceNames names front stem) :
    ∀ n ∈ front, '/' ∉ n.toList :=
  fun n hn => (h.proper n (h.eq ▸ List.mem_append_left _ hn)).no_slash

theorem SourceNames.proper_last (h : SourceNames names front stem) :
    ProperName (stem ++ "." ++ "thrift") :=
  h.proper _ (h.eq ▸ List.mem_append_right front List.mem_cons_self)

theorem SourceNames.proper_moduleName (h : SourceNames names front stem) :
    ProperName (stem ++ "." ++ "ts") := by
  have hlong {other : String} (hl : other.length < 3) : stem ++ "." ++ "ts" ≠ other := by
    rintro rfl
    have hmark : ".".length + "ts".length = 3 := by decide
    rw [String.length_append, String.length_append] at hl
    omega
  have hslash : '/' ∉ (stem ++ "." ++ "ts").toList := by
    have hstem : '/' ∉ stem.toList := fun hm => h.proper_last.no_slash (by simp [hm])
    simp [hstem]
  exact ⟨hlong (by decide), hlong (by decide), hlong (by decide), hslash⟩

theorem SourceNames.proper_module (h : SourceNames names front stem) :
    ∀ n ∈ front ++ [stem ++ "." ++ "ts"], ProperName n := by
  refine List.forall_mem_append.mpr ⟨fun n hn => ?_, List.forall_mem_singleton.mpr ?_⟩
  · exact h.proper n (h.eq ▸ List.mem_append_left _ hn)
  · exact h.proper_moduleName

/-- The last step to a module is named for its source, under the other extension; without its own a
source may be a step upwards. -/
def moduleStep (stem : String) : String := if stem = "." then ".." else stem ++ "." ++ "ts"

theorem moduleStep_of_ne (h : stem ≠ ".") : moduleStep stem = stem ++ "." ++ "ts" := if_neg h

theorem SourceNames.moduleStep_eq_up (h : SourceNames names front stem) :
    moduleStep stem = ".." ↔ stem = "." := by
  unfold moduleStep
  split
  · next hdot => exact iff_of_true rfl hdot
  · next hdot => exact iff_of_false h.proper_moduleName.ne_up hdot

theorem SourceNames.moduleStep_step (h : SourceNames names front stem) :
    moduleStep stem ≠ "" ∧ moduleStep stem ≠ "." ∧ '/' ∉ (moduleStep stem).toList := by
  unfold moduleStep
  split
  · decide
  · exact ⟨h.proper_moduleName.nonempty, h.proper_moduleName.ne_dot, h.proper_moduleName.no_slash⟩

theorem SourceNames.moduleStep_unique (h : SourceNames names front stem)
    (h' : SourceNames names' front' stem') (he : moduleStep stem = moduleStep stem') :
    stem = stem' := by
  have hup : stem = "." ↔ stem' = "." := by rw [← h.moduleStep_eq_up, he, h'.moduleStep_eq_up]
  by_cases hdot : stem = "."
  · rw [hdot, hup.mp hdot]
  · rw [moduleStep_of_ne hdot, moduleStep_of_ne (mt hup.mpr hdot)] at he
    rwa [String.append_left_inj, String.append_left_inj] at he

theorem SourceNames.module_names (h : SourceNames names front stem) :
    ∀ n ∈ front ++ [moduleStep stem], n ≠ "" ∧ '/' ∉ n.toList := by
  refine List.forall_mem_append.mpr ⟨fun n hn => ?_, List.forall_mem_singleton.mpr ?_⟩
  · have hproper := h.proper n (h.eq ▸ List.mem_append_left _ hn)
    exact ⟨hproper.nonempty, hproper.no_slash⟩
  · exact ⟨h.moduleStep_step.1, h.moduleStep_step.2.2⟩

theorem destination_join (h : SourceNames names front stem) :
    c.destination false (ofParts names) = join c.dir (ofParts (front ++ [moduleStep stem])) := by
  have hext := withExtension_ofParts h.proper_last h.front_no_slash h.stem (by decide) "ts"
  rw [← h.eq] at hext
  rw [Config.destination, if_neg (by simp), hext, moduleStep]
  split <;> rfl

/-- Below a directory a module takes the place of its source. -/
theorem destination_eq (h : SourceNames names front stem) :
    isAbsolute (c.destination false (ofParts names)) = isAbsolute c.dir ∧
      steps (c.destination false (ofParts names)) =
        steps c.dir ++ (front ++ [moduleStep stem]) := by
  have hrelative := isAbsolute_names h.module_names
  rw [destination_join h, isAbsolute_join hrelative, steps_join hrelative,
    steps_ofParts h.module_names]
  exact ⟨rfl, rfl⟩

/-- A path with the name of a module has its extension, and a step upwards has none. -/
theorem extension?_destination (h : SourceNames names front stem) :
    extension? (c.destination false (ofParts names)) = if stem = "." then none else some "ts" := by
  obtain ⟨others, hparts⟩ := parts_join (isAbsolute_names h.module_names) c.dir
  rw [parts_ofParts (List.concat_ne_nil _ front) fun n hn => (h.module_names n hn).2,
    ← List.append_assoc] at hparts
  have hfront : ∀ n ∈ others ++ front, '/' ∉ n.toList := fun n hn =>
    not_mem_of_mem_parts (hparts ▸ List.mem_append_left [moduleStep stem] hn)
  rw [extension?, destination_join h, ← ofParts_parts (join c.dir _), hparts]
  split
  · next hdot => rw [h.moduleStep_eq_up.mpr hdot, fileName?_up hfront, Option.bind_none]
  · next hdot =>
    rw [moduleStep_of_ne hdot, fileName?_ofParts h.proper_moduleName hfront, Option.bind_some,
      splitExtension_append h.stem (by decide)]

/-- No step to a module is left out of its path. -/
theorem SourceNames.filter_module (h : SourceNames names front stem) :
    (front ++ [moduleStep stem]).filter (· ≠ ".") = front ++ [moduleStep stem] := by
  refine List.filter_eq_self.mpr (List.forall_mem_append.mpr ⟨fun n hn => ?_, ?_⟩)
  · exact decide_eq_true (h.proper n (h.eq ▸ List.mem_append_left _ hn)).ne_dot
  · exact List.forall_mem_singleton.mpr (decide_eq_true h.moduleStep_step.2.1)

/-- Sources whose modules have the same path are the same. -/
theorem names_of_same (h : SourceNames names front stem) (h' : SourceNames names' front' stem')
    (hs : same (c.destination false (ofParts names)) (c.destination false (ofParts names')) =
      true) : names = names' := by
  have hnames := steps_of_same hs
  rw [(destination_eq h).2, (destination_eq h').2, List.filter_append,
    List.filter_append (steps c.dir), List.append_cancel_left_eq, h.filter_module,
    h'.filter_module, List.append_singleton_inj] at hnames
  rw [h.eq, h'.eq, hnames.1, h.moduleStep_unique h' hnames.2]

/-- A module that is written takes the place of its source below the directory. -/
theorem destination_of_readText {text : String} (h : SourceNames names front stem)
    (hr : t.readText (c.destination false (ofParts names)) = .ok text) :
    stem ≠ "." ∧ isAbsolute (c.destination false (ofParts names)) = isAbsolute c.dir ∧
      steps (c.destination false (ofParts names)) =
        steps c.dir ++ (front ++ [stem ++ "." ++ "ts"]) := by
  obtain ⟨habsolute, hsteps⟩ := destination_eq (c := c) h
  have hup := (last_of_readText hr (hsteps.trans (List.append_assoc _ _ _).symm)).2
  have hdot : stem ≠ "." := mt h.moduleStep_eq_up.mpr hup
  exact ⟨hdot, habsolute, moduleStep_of_ne hdot ▸ hsteps⟩

end Places

theorem extension?_name {stem extension : String} (h : ProperName (stem ++ "." ++ extension))
    (hs : stem ≠ "") (he : '.' ∉ extension.toList) :
    extension? (stem ++ "." ++ extension) = some extension := by
  rw [extension?, fileName?_name h, Option.bind_some, splitExtension_append hs he]

/-- The last name at the place of a source has its extension. -/
theorem SourceNames.keyOf_descend {names front : List String} {stem : String}
    (h : SourceNames names front stem) (home : Key) (root : String) :
    keyOf home (descend root names) = keyOf home root ++ front ++ [stem ++ "." ++ "thrift"] ∧
      extension? (stem ++ "." ++ "thrift") = some "thrift" := by
  obtain ⟨habsolute, hsteps⟩ := steps_descend h.proper root
  refine ⟨?_, extension?_name h.proper_last h.stem (by decide)⟩
  rw [keyOf_names habsolute hsteps h.proper, h.eq, List.append_assoc]

/-- What is known of a module of a directory: its source and its place. -/
structure Placed (c : Config) (t : Tree) (root : String) (g : Generated) (front : List String)
    (stem : String) : Prop where
  names : SourceNames (front ++ [stem ++ "." ++ "thrift"]) front stem
  convert : c.convert t false ⟨descend root (front ++ [stem ++ "." ++ "thrift"]),
    ofParts (front ++ [stem ++ "." ++ "thrift"])⟩ = .ok g
  stem_ne : stem ≠ "."
  key (home : Key) : keyOf home g.output = keyOf home c.dir ++ (front ++ [stem ++ "." ++ "ts"])

/-- A module of a directory that is written comes from a source and goes to its place. -/
theorem placed_of_mem {root : String} {gitignore : Bool} {filter : Option String} {report : Report}
    (ht : t.isProper = true) (hs : t.scanWith root gitignore filter = .ok sources)
    (hdir : t.isFile root = false) (hr : c.generate t false sources = .ok report) {g : Generated}
    (hg : g ∈ report.modules) (hw : ∃ t₁ : Tree, t₁.readText g.output = .ok g.content) :
    ∃ front stem, Placed c t root g front stem := by
  obtain ⟨f, hf, hconvert⟩ := mem_generate hr g hg
  obtain ⟨t₁, hread⟩ := hw
  obtain ⟨names, front, stem, hnames, rfl⟩ := exists_source ht hs hdir hf
  obtain rfl := hnames.eq
  have houtput := (convert_eq_ok hconvert).2.1
  rw [houtput] at hread
  obtain ⟨hdot, habsolute, hsteps⟩ := destination_of_readText hnames hread
  refine ⟨front, stem, hnames, hconvert, hdot, fun home => ?_⟩
  rw [houtput, keyOf_names habsolute hsteps hnames.proper_module]

/-- No two modules of a run go to one place. -/
theorem modules_unique {root : String} {gitignore : Bool} {filter : Option String} {report : Report}
    (ht : t.isProper = true) (hs : t.scanWith root gitignore filter = .ok sources)
    (hr : c.generate t (t.isFile root) sources = .ok report)
    (hw : ∀ g ∈ report.modules, ∃ t₁ : Tree, t₁.readText g.output = .ok g.content) {g h : Generated}
    (hg : g ∈ report.modules) (hh : h ∈ report.modules) {home : Key}
    (he : keyOf home g.output = keyOf home h.output) : g = h := by
  cases hfile : t.isFile root with
  | true =>
    obtain ⟨f, hf, hfg⟩ := mem_generate hr g hg
    obtain ⟨f', hf', hfh⟩ := mem_generate hr h hh
    rcases scanWith_eq ht hs with ⟨-, s, rfl⟩ | ⟨hdir, -⟩
    · rw [List.mem_singleton.mp hf] at hfg
      rw [List.mem_singleton.mp hf'] at hfh
      exact Except.ok.inj (hfg.symm.trans hfh)
    · rw [hfile] at hdir
      cases hdir
  | false =>
    rw [hfile] at hr
    obtain ⟨front, stem, hplaced⟩ := placed_of_mem ht hs hfile hr hg (hw g hg)
    obtain ⟨front', stem', hplaced'⟩ := placed_of_mem ht hs hfile hr hh (hw h hh)
    rw [hplaced.key, hplaced'.key, List.append_cancel_left_eq, List.append_singleton_inj,
      String.append_left_inj, String.append_left_inj] at he
    obtain ⟨rfl, rfl⟩ := he
    exact Except.ok.inj (hplaced.convert.symm.trans hplaced'.convert)

/-- Writes modules one after another, until one fails. -/
def Files.Tree.writeAll? (t : Tree) : List Generated → Option Tree
  | [] => some t
  | g :: rest =>
    match t.writeFile false g.output g.content with
    | (t', .ok _) => writeAll? t' rest
    | (_, .error _) => none

/-- The places on the way to some modules. -/
def OnWays (home : Key) (modules : List Generated) (key : Key) : Prop :=
  ∃ g ∈ modules, OnWay home g.output key

/-- The places of some modules. -/
def Outputs (home : Key) (modules : List Generated) (key : Key) : Prop :=
  ∃ g ∈ modules, key = keyOf home g.output

theorem writeAll?_cons {g : Generated} {rest : List Generated}
    (h : t.writeAll? (g :: rest) = some t') :
    ∃ t₁ w, t.writeFile false g.output g.content = (t₁, .ok w) ∧ t₁.writeAll? rest = some t' := by
  rw [Tree.writeAll?] at h
  split at h
  · next t₁ w hw => exact ⟨t₁, w, hw, h⟩
  · cases h

theorem writeFile_edits_of_mem {g : Generated} {w : Written} (hg : g ∈ modules)
    (h : t.writeFile false g.output g.content = (t', .ok w)) :
    Edits (OnWays t.home modules) (Outputs t.home modules) t t' :=
  (writeFile_edits h).1.mono (fun _ hk => ⟨g, hg, hk⟩) fun _ hk => ⟨g, hg, hk⟩

/-- Writing modules makes directories on their ways and leaves all but their places as it was. -/
theorem writeAll?_edits (h : t.writeAll? modules = some t') :
    Edits (OnWays t.home modules) (Outputs t.home modules) t t' := by
  induction modules generalizing t with
  | nil =>
    obtain rfl := Option.some.inj h
    exact .refl
  | cons g rest ih =>
    obtain ⟨t₁, w, hfirst, hrest⟩ := writeAll?_cons h
    have hlater : Edits (OnWays t₁.home (g :: rest)) (Outputs t₁.home (g :: rest)) t₁ t' :=
      (ih hrest).mono (fun _ ⟨h, hm, hk⟩ => ⟨h, List.mem_cons_of_mem g hm, hk⟩)
        fun _ ⟨h, hm, hk⟩ => ⟨h, List.mem_cons_of_mem g hm, hk⟩
    have hedits := writeFile_edits_of_mem (List.mem_cons_self : g ∈ g :: rest) hfirst
    exact hedits.trans (hedits.changes.home ▸ hlater)

/-- Every module is found at its path as soon as it is written. -/
theorem writeAll?_written (h : t.writeAll? modules = some t') :
    ∀ g ∈ modules, ∃ t₁ : Tree, t₁.readText g.output = .ok g.content := by
  induction modules generalizing t with
  | nil => exact fun _ hg => absurd hg List.not_mem_nil
  | cons g rest ih =>
    obtain ⟨t₁, w, hfirst, hrest⟩ := writeAll?_cons h
    exact List.forall_mem_cons.mpr ⟨⟨t₁, (writeFile_edits hfirst).2⟩, ih hrest⟩

/-- What is written later leaves a module as it is, if what goes to one place is the same. -/
theorem writeAll?_readText (h : t.writeAll? modules = some t')
    (hunique : ∀ g ∈ modules, ∀ h ∈ modules,
      keyOf t.home g.output = keyOf t.home h.output → g = h) :
    ∀ g ∈ modules, t'.readText g.output = .ok g.content := by
  induction modules generalizing t with
  | nil => exact fun _ hg => absurd hg List.not_mem_nil
  | cons g rest ih =>
    obtain ⟨t₁, w, hfirst, hrest⟩ := writeAll?_cons h
    have hedits := writeFile_edits hfirst
    have hhome : t₁.home = t.home := hedits.1.changes.home
    have hlater : ∀ h ∈ rest, t'.readText h.output = .ok h.content := by
      refine ih hrest fun h hm k km he => ?_
      rw [hhome] at he
      exact hunique h (List.mem_cons_of_mem g hm) k (List.mem_cons_of_mem g km) he
    refine List.forall_mem_cons.mpr ⟨?_, hlater⟩
    by_cases hk : Outputs t₁.home rest (keyOf t₁.home g.output)
    · obtain ⟨h, hm, hk⟩ := hk
      rw [hhome] at hk
      rw [hunique g List.mem_cons_self h (List.mem_cons_of_mem g hm) hk]
      exact hlater h hm
    · exact (writeAll?_edits hrest).changes.readText hedits.2 hk

end SchemaGen
