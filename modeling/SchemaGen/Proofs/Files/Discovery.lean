import Mathlib.Data.List.Infix
import SchemaGen.Files.Scan
import SchemaGen.Proofs.Files.Tree

namespace SchemaGen.Files.Tree

open Files.Path

variable {t t' : Tree} {made written : Key → Prop} {gitignore : Bool} {root : String}
  {base key : Key} {path : String}

/-- Two trees that have the same rules at a directory. -/
structure SameRules (t t' : Tree) (directory : Key) : Prop where
  plain : t'.linesAt (directory ++ [".ignore"]) = t.linesAt (directory ++ [".ignore"])
  git : t'.linesAt (directory ++ [".gitignore"]) = t.linesAt (directory ++ [".gitignore"])
  exclude : t'.excludeLines directory = t.excludeLines directory
  top : t'.isRepository directory = t.isRepository directory

theorem verdict?_congr {lines lines' : Key → List String} {isDirectory : Bool} {sites : List Site}
    (h : ∀ s ∈ sites, lines' s.directory = lines s.directory) :
    verdict? lines' isDirectory sites = verdict? lines isDirectory sites := by
  induction sites with
  | nil => rfl
  | cons s sites ih =>
    rw [List.forall_mem_cons] at h
    have hrest := ih h.2
    rw [verdict?] at hrest ⊢
    rw [verdict?, List.findSome?_cons, List.findSome?_cons, h.1, hrest, verdict?]

theorem mem_repositoryPart {sites : List Site} {s : Site} (h : s ∈ t.repositoryPart sites) :
    s ∈ sites := by
  unfold repositoryPart at h
  dsimp only at h
  split at h
  · rcases List.mem_append.mp h with h | h
    · exact (List.takeWhile_subset _) h
    · exact List.mem_of_find?_eq_some (Option.mem_toList.mp h)
  · exact absurd h List.not_mem_nil

theorem repositoryPart_congr {sites : List Site}
    (h : ∀ s ∈ sites, t'.isRepository s.directory = t.isRepository s.directory) :
    t'.repositoryPart sites = t.repositoryPart sites := by
  have hparts : sites.any (t'.isRepository ·.directory) = sites.any (t.isRepository ·.directory) ∧
      sites.takeWhile (!t'.isRepository ·.directory) =
        sites.takeWhile (!t.isRepository ·.directory) ∧
      sites.find? (t'.isRepository ·.directory) = sites.find? (t.isRepository ·.directory) := by
    induction sites with
    | nil => exact ⟨rfl, rfl, rfl⟩
    | cons s sites ih =>
      rw [List.forall_mem_cons] at h
      obtain ⟨hany, htake, hfind⟩ := ih h.2
      rw [List.any_cons, List.any_cons, List.takeWhile_cons, List.takeWhile_cons, List.find?_cons,
        List.find?_cons, h.1, hany, htake, hfind]
      exact ⟨rfl, rfl, rfl⟩
  obtain ⟨hany, htake, hfind⟩ := hparts
  rw [repositoryPart, repositoryPart, hany, htake, hfind]

theorem directory_of_mem_above {s : Site} (h : s ∈ Site.above root base key) :
    s.directory <+: key ∧ s.directory ≠ key := by
  obtain ⟨n, hn, hs⟩ := List.mem_map.mp h
  rw [List.mem_reverse, List.mem_range] at hn
  have hdirectory : s.directory = key.take n := by
    rw [← hs]
    split <;> rfl
  rw [hdirectory]
  refine ⟨List.take_prefix n key, fun he => ?_⟩
  have hlength := congrArg List.length he
  rw [List.length_take] at hlength
  omega

theorem isHidden_congr (h : ∀ d, d <+: key → d ≠ key → SameRules t t' d)
    (hd : t'.isDirectoryAt key = t.isDirectoryAt key) :
    t'.isHidden gitignore root base key = t.isHidden gitignore root base key := by
  have hsites : ∀ s ∈ Site.above root base key, SameRules t t' s.directory :=
    fun s hs => h _ (directory_of_mem_above hs).1 (directory_of_mem_above hs).2
  have hpart := repositoryPart_congr fun s hs => (hsites s hs).top
  unfold isHidden
  dsimp only
  rw [hpart, hd]
  generalize hr : (if gitignore then t.repositoryPart (Site.above root base key) else []) =
    repository
  have hrepository : ∀ s ∈ repository, SameRules t t' s.directory := by
    intro s hs
    subst hr
    split at hs
    · exact hsites s (mem_repositoryPart hs)
    · exact absurd hs List.not_mem_nil
  generalize t.isDirectoryAt key = isDirectory
  have hplain : verdict? (fun d => t'.linesAt (d ++ [".ignore"])) isDirectory
      (Site.above root base key) = verdict? (fun d => t.linesAt (d ++ [".ignore"])) isDirectory
      (Site.above root base key) := verdict?_congr fun s hs => (hsites s hs).plain
  have hgit : verdict? (fun d => t'.linesAt (d ++ [".gitignore"])) isDirectory repository =
      verdict? (fun d => t.linesAt (d ++ [".gitignore"])) isDirectory repository :=
    verdict?_congr fun s hs => (hrepository s hs).git
  have hexclude : verdict? t'.excludeLines isDirectory repository =
      verdict? t.excludeLines isDirectory repository :=
    verdict?_congr fun s hs => (hrepository s hs).exclude
  rw [hplain, hgit, hexclude]

/-- Whether a walk comes to an entry depends on nothing but the directories above it, and on whether
it is one. -/
theorem reaches_congr (h : ∀ d, d <+: key → d ≠ key → SameRules t t' d)
    (hd : ∀ d, d <+: key → t'.isDirectoryAt d = t.isDirectoryAt d) :
    t'.reaches gitignore root base key = t.reaches gitignore root base key := by
  have hhidden (n : Nat) : t'.isHidden gitignore root base (key.take n) =
      t.isHidden gitignore root base (key.take n) := by
    have hfront := List.take_prefix n key
    refine isHidden_congr (fun d hp hne => h d (hp.trans hfront) ?_) (hd _ hfront)
    rintro rfl
    exact hne (hp.eq_of_length (le_antisymm hp.length_le hfront.length_le))
  simp only [reaches, hhidden]

/-- Whether the name at a place has the extension of a module. -/
def IsModulePlace (key : Key) : Prop :=
  ∃ front name, key = front ++ [name] ∧ extension? name = some "ts"

theorem not_isModulePlace (front : Key) {name : String} (h : extension? name ≠ some "ts") :
    ¬ IsModulePlace (front ++ [name]) := by
  rintro ⟨others, other, he, hother⟩
  obtain ⟨-, rfl⟩ := List.append_singleton_inj.mp he
  exact h hother

/-- Whether an entry is a source below a place, if no rule hides it. -/
def isSourceBelow (base : Key) (e : Key × Node) : Bool :=
  base.isPrefixOf e.1 && base.length < e.1.length && e.2 != .directory && isSource (e.1.getLastD "")

/-- The directories above the sources below a place, those that a rule hides too. -/
def ruleDirectories (t : Tree) (base : Key) : List Key :=
  (t.entries.filter (isSourceBelow base)).flatMap fun e => e.1.dropLast.inits

/-- Nothing came into being where the rules for the sources below a place would be read from. -/
structure Undisturbed (t t' : Tree) (base : Key) : Prop where
  /-- No directory above a source became the top of a repository. -/
  marks : ∀ d ∈ t.ruleDirectories base, ∀ mark ∈ repositoryMarks,
    t.node? (d ++ [mark]) = none → t'.node? (d ++ [mark]) = none
  /-- No file in place of the data of a repository leads further than before. -/
  pointed : ∀ d ∈ t.ruleDirectories base, ∀ path ∈ t.pointedPaths (d ++ [".git"]),
    t.has path = false → t'.has path = false

theorem keyOf_exclude (home : Key) (shared : String) :
    keyOf home (join shared "info/exclude") = keyOf home shared ++ ["info"] ++ ["exclude"] := by
  have hnames : ∀ n ∈ ["info", "exclude"], ProperName n :=
    fun n hn => isProperName_iff.mp (List.all_eq_true.mp (by decide : _ = true) n hn)
  exact (keyOf_join hnames home shared).trans (List.append_assoc _ ["info"] ["exclude"]).symm

section
variable (hc : Changes made written t t') (hw : ∀ key, written key → IsModulePlace key)

include hc hw

theorem linesAt_eq (h : ¬ IsModulePlace key) : t'.linesAt key = t.linesAt key := by
  rcases hc.places key with hsame | ⟨-, hnone, hdir⟩ | ⟨hwritten, -⟩
  · rw [linesAt, linesAt, hsame]
  · rw [linesAt, linesAt, hnone, hdir]
  · exact absurd (hw key hwritten) h

theorem linesOf_eq (h : ¬ IsModulePlace (keyOf t.home path))
    (habsent : t.has path = false → t'.has path = false) : t'.linesOf path = t.linesOf path := by
  have hhas {t : Tree} {fault : Fault} (h : t.locate path = .error fault) : t.has path = false := by
    rw [has, h]
    rfl
  unfold linesOf
  cases hkey : t.locate path with
  | ok key =>
    rw [hc.locate hkey]
    exact linesAt_eq hc hw (keyOf_of_locate hkey ▸ h)
  | error fault =>
    cases hkey' : t'.locate path with
    | ok key' =>
      have hfound := has_iff.mpr ⟨key', hkey'⟩
      rw [habsent (hhas hkey)] at hfound
      cases hfound
    | error fault' => rfl

theorem sharedData?_eq (h : ∀ path ∈ t.pointedPaths (key ++ [".git"]),
    t.has path = false → t'.has path = false) :
    t'.sharedData? (key ++ [".git"]) = t.sharedData? (key ++ [".git"]) := by
  have hpointed : t'.pointed? (key ++ [".git"]) = t.pointed? (key ++ [".git"]) := by
    rw [pointed?, pointed?, linesAt_eq hc hw (not_isModulePlace key (by decide))]
  rw [sharedData?, sharedData?, hpointed]
  cases hdata : t.pointed? (key ++ [".git"]) with
  | none => rfl
  | some data =>
    have hname : ∀ n ∈ ["commondir"], ProperName n := by
      exact List.forall_mem_singleton.mpr (isProperName_iff.mp (by decide))
    have hkey : keyOf t.home (join data "commondir") = keyOf t.home data ++ ["commondir"] :=
      keyOf_join hname t.home data
    have hlines : t'.linesOf (join data "commondir") = t.linesOf (join data "commondir") := by
      refine linesOf_eq hc hw (hkey ▸ not_isModulePlace _ (by decide)) (h _ ?_)
      simp [pointedPaths, hdata]
    simp only [Option.bind_eq_bind, Option.bind_some, hlines]

theorem excludeLines_eq (hmark : t'.node? (key ++ [".git"]) = t.node? (key ++ [".git"]))
    (h : ∀ path ∈ t.pointedPaths (key ++ [".git"]), t.has path = false → t'.has path = false) :
    t'.excludeLines key = t.excludeLines key := by
  have hinfo : ¬ IsModulePlace (key ++ [".git"] ++ ["info", "exclude"]) := by
    have hlast := not_isModulePlace (key ++ [".git"] ++ ["info"])
      (by decide : extension? "exclude" ≠ some "ts")
    rwa [List.append_assoc _ ["info"]] at hlast
  unfold excludeLines isDirectoryAt
  dsimp only
  rw [hmark, linesAt_eq hc hw hinfo, sharedData?_eq hc hw h]
  split
  · rfl
  · cases hshared : t.sharedData? (key ++ [".git"]) with
    | none => rfl
    | some shared =>
      refine linesOf_eq hc hw (keyOf_exclude t.home shared ▸ not_isModulePlace _ (by decide))
        (h _ ?_)
      simp [pointedPaths, hshared]

theorem Undisturbed.sameRules (hu : Undisturbed t t' base) {d : Key}
    (hd : d ∈ t.ruleDirectories base) : SameRules t t' d := by
  have hmark {mark : String} (hm : mark ∈ repositoryMarks) (hext : extension? mark ≠ some "ts") :
      t'.node? (d ++ [mark]) = t.node? (d ++ [mark]) := by
    by_cases hnone : t.node? (d ++ [mark]) = none
    · rw [hu.marks d hd mark hm hnone, hnone]
    · exact hc.node_eq hnone fun h => not_isModulePlace d hext (hw _ h)
  have hgit := hmark (by simp [repositoryMarks] : ".git" ∈ repositoryMarks) (by decide)
  have hjj := hmark (by simp [repositoryMarks] : ".jj" ∈ repositoryMarks) (by decide)
  refine ⟨linesAt_eq hc hw (not_isModulePlace d (by decide)),
    linesAt_eq hc hw (not_isModulePlace d (by decide)),
    excludeLines_eq hc hw hgit (hu.pointed d hd), ?_⟩
  simp only [isRepository, repositoryMarks, List.any_cons, List.any_nil, hgit, hjj]

end

/-- Every entry stands in directories. -/
def isRooted (t : Tree) : Bool := t.entries.all fun e => e.1.dropLast.inits.all t.isDirectoryAt

theorem prefix_dropLast {d : Key} (hp : d <+: key) (hne : d ≠ key) : d <+: key.dropLast := by
  rcases List.eq_nil_or_concat' key with rfl | ⟨front, name, rfl⟩
  · exact absurd (List.prefix_nil.mp hp) hne
  · rw [List.dropLast_concat]
    exact (List.prefix_concat_iff.mp hp).resolve_left hne

/-- A change keeps the directories on the way to a source, and makes none of it. -/
theorem isDirectoryAt_eq (hc : Changes made written t t')
    (hw : ∀ key, written key → IsModulePlace key) (hr : t.isRooted = true) {node : Node}
    (hmem : (key, node) ∈ t.entries) (hkey : ¬ IsModulePlace key) {d : Key} (hp : d <+: key) :
    t'.isDirectoryAt d = t.isDirectoryAt d := by
  by_cases hd : d = key
  · rw [hd, isDirectoryAt, isDirectoryAt,
      hc.node_eq (node?_ne_none hmem) fun h => hkey (hw key h)]
  · have hfront := (List.mem_inits _ _).mpr (prefix_dropLast hp hd)
    have hdir := List.all_eq_true.mp (List.all_eq_true.mp hr _ hmem) d hfront
    rw [hdir, hc.isDirectoryAt hdir]

theorem sourcesBelow_eq_filterMap (t : Tree) (gitignore : Bool) (root : String) (base : Key) :
    t.sourcesBelow gitignore root base = t.entries.filterMap fun e =>
      if isSourceBelow base e && t.reaches gitignore root base e.1 then
        some (e.1.drop base.length) else none :=
  rfl

theorem IsModulePlace.not_source (h : IsModulePlace key) (node : Node) :
    isSourceBelow base (key, node) = false := by
  obtain ⟨front, name, rfl, hext⟩ := h
  have hsource : isSource name = false := by
    rw [isSource, hext]
    decide
  rw [isSourceBelow, List.getLastD_concat, hsource, Bool.and_false]

/-- Writing modules keeps the sources below a place. -/
theorem sourcesBelow_eq (he : Edits made written t t')
    (hw : ∀ key, written key → IsModulePlace key) (hr : t.isRooted = true)
    (hu : Undisturbed t t' base) :
    t'.sourcesBelow gitignore root base = t.sourcesBelow gitignore root base := by
  have hnone {e : Key × Node} (h : isSourceBelow base e = false) :
      (if isSourceBelow base e && t'.reaches gitignore root base e.1 then
        some (e.1.drop base.length) else none) = none := by
    rw [h, Bool.false_and]
    rfl
  have hdirectory (key : Key) : isSourceBelow base (key, .directory) = false := by
    simp [isSourceBelow]
  -- what is made or written is no source, so the entries from before are left
  rw [sourcesBelow_eq_filterMap, sourcesBelow_eq_filterMap,
    he.filterMap_entries (fun key => hnone (hdirectory key)) fun key node h =>
      hnone ((hw key h).not_source node)]
  refine List.filterMap_congr fun e hmem => ?_
  by_cases hsource : isSourceBelow base e = true
  · have hkey : ¬ IsModulePlace e.1 := by
      intro h
      rw [h.not_source e.2] at hsource
      cases hsource
    rw [reaches_congr (fun d hp hne => hu.sameRules he.changes hw ?_) fun d hp =>
      isDirectoryAt_eq he.changes hw hr hmem hkey hp]
    exact List.mem_flatMap.mpr ⟨e, List.mem_filter.mpr ⟨hmem, hsource⟩,
      (List.mem_inits _ _).mpr (prefix_dropLast hp hne)⟩
  · rw [Bool.not_eq_true] at hsource
    rw [hsource, Bool.false_and, Bool.false_and]

theorem isDirectory_iff : t.isDirectory root = true ↔
    ∃ key, t.locate root = .ok key ∧ t.isDirectoryAt key = true := by
  rw [isDirectory]
  cases t.locate root with
  | error fault => simp
  | ok key => simp

theorem isFile_of_directory (h : t.isDirectory root = true) : t.isFile root = false := by
  obtain ⟨key, hkey, hdir⟩ := isDirectory_iff.mp h
  rw [isFile, hkey]
  exact (congrArg not hdir : _ = false)

theorem Changes.isDirectory (hc : Changes made written t t') (h : t.isDirectory root = true) :
    t'.isDirectory root = true := by
  obtain ⟨key, hkey, hdir⟩ := isDirectory_iff.mp h
  exact isDirectory_iff.mpr ⟨key, hc.locate hkey, hc.isDirectoryAt hdir⟩

/-- A scan starts at a directory, if not at a file. -/
theorem isDirectory_of_scanWith {filter : Option String} {sources : List Source}
    (h : t.scanWith root gitignore filter = .ok sources) (hfile : t.isFile root = false) :
    t.isDirectory root = true := by
  have hscan {filter : Option (List GlobToken)} (h : t.scan root gitignore filter = .ok sources) :
      t.isDirectory root = true := by
    unfold scan at h
    rw [isFile] at hfile
    rw [isDirectory]
    cases hkey : t.locate root with
    | error fault =>
      rw [hkey] at h
      cases h
    | ok key =>
      rw [hkey] at hfile
      simpa using hfile
  unfold scanWith at h
  split at h
  · exact hscan h
  · split at h
    · cases h
    · exact hscan h

theorem scan_of_directory (filter : Option (List GlobToken)) (hkey : t.locate root = .ok key)
    (hdir : t.isDirectoryAt key = true) :
    t.scan root gitignore filter =
      let kept := (t.sourcesBelow gitignore root key).filter fun steps =>
        filter.all (Glob.accepts · (ofParts steps).toList)
      if kept.isEmpty || same root standardInput then .error (.noSources root)
      else
        .ok ((kept.mergeSort precedes).map fun steps =>
          ⟨descend root steps, ofParts steps⟩) := by
  rw [scan, hkey]
  exact if_pos hdir

/-- Sources that are found in order stay in this order. -/
theorem scan_of_sorted {kept : List Key} (hkey : t.locate root = .ok key)
    (hdir : t.isDirectoryAt key = true) (hkept : t.sourcesBelow gitignore root key = kept)
    (hne : kept ≠ []) (hroot : same root standardInput = false)
    (hsorted : kept.Pairwise fun a b => precedes a b = true) :
    t.scan root gitignore none =
      .ok (kept.map fun steps => ⟨descend root steps, ofParts steps⟩) := by
  have hall : (kept.filter fun steps =>
      (none : Option (List GlobToken)).all (Glob.accepts · (ofParts steps).toList)) = kept :=
    List.filter_eq_self.mpr fun _ _ => rfl
  have hsort : kept.mergeSort precedes = kept := List.mergeSort_of_pairwise hsorted
  rw [scan_of_directory none hkey hdir, hkept, hall]
  dsimp only
  rw [hsort, hroot, List.isEmpty_eq_false_iff.mpr hne]
  rfl

/-- Writing modules keeps what a scan of a directory finds. -/
theorem scan_of_edits (he : Edits made written t t')
    (hw : ∀ key, written key → IsModulePlace key) (hr : t.isRooted = true)
    (hroot : t.isDirectory root = true) (hu : Undisturbed t t' (keyOf t.home root))
    (filter : Option (List GlobToken)) :
    t'.scan root gitignore filter = t.scan root gitignore filter := by
  obtain ⟨key, hkey, hdir⟩ := isDirectory_iff.mp hroot
  rw [keyOf_of_locate hkey] at hu
  rw [scan_of_directory filter hkey hdir,
    scan_of_directory filter (he.changes.locate hkey) (he.changes.isDirectoryAt hdir),
    sourcesBelow_eq he hw hr hu]

theorem scanWith_of_edits (he : Edits made written t t')
    (hw : ∀ key, written key → IsModulePlace key) (hr : t.isRooted = true)
    (hroot : t.isDirectory root = true) (hu : Undisturbed t t' (keyOf t.home root))
    (filter : Option String) :
    t'.scanWith root gitignore filter = t.scanWith root gitignore filter := by
  unfold scanWith
  split
  · exact scan_of_edits he hw hr hroot hu none
  · split
    · rfl
    · exact scan_of_edits he hw hr hroot hu _

end SchemaGen.Files.Tree
