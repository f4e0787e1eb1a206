import Mathlib.Data.List.Lex
import Mathlib.Data.List.Sort
import Mathlib.Data.String.Basic
import SchemaGen.Proofs.Files.Discovery
import SchemaGen.Proofs.Project.Generate

namespace SchemaGen

open Files Files.Tree Files.Path

namespace Files

/-- The source some steps below a root. -/
def Source.below (root : String) (names : Key) : Source := ⟨descend root names, ofParts names⟩

namespace Tree

variable {t : Tree} {gitignore : Bool} {root : String} {base key names : Key}
  {filter : Option (List GlobToken)} {visited visited' : List (Key × Node)}

def isBelow (base : Key) (e : Key × Node) : Bool :=
  base.isPrefixOf e.1 && base.length < e.1.length

/-- Whether an entry is a file with the extension of a source. -/
def isSourceFile (e : Key × Node) : Bool := e.2 != .directory && isSource (e.1.getLastD "")

/-- The entries that a walk from a root comes to. From a root that stands for the standard input it
comes to none. -/
def visits (t : Tree) (gitignore : Bool) (root : String) (base : Key) : List (Key × Node) :=
  if same root standardInput then []
  else t.entries.filter fun e => isBelow base e && t.reaches gitignore root base e.1

/-- The steps from a root to the sources among the entries that a walk comes to. -/
def sourceSteps (base : Key) (filter : Option (List GlobToken)) (visited : List (Key × Node)) :
    List Key :=
  ((visited.filter isSourceFile).map fun e => e.1.drop base.length).filter fun names =>
    filter.all (Glob.accepts · (ofParts names).toList)

/-- What a scan makes of the entries that a walk comes to one after another. -/
def collect (root : String) (base : Key) (filter : Option (List GlobToken))
    (visited : List (Key × Node)) : Except ScanError (List Source) :=
  let kept := sourceSteps base filter visited
  if kept.isEmpty then .error (.noSources root)
  else .ok ((kept.mergeSort precedes).map (Source.below root))

theorem sourcesBelow_eq_map (t : Tree) (gitignore : Bool) (root : String) (base : Key) :
    t.sourcesBelow gitignore root base =
      ((t.entries.filter fun e => isBelow base e && t.reaches gitignore root base e.1).filter
        isSourceFile).map fun e => e.1.drop base.length := by
  rw [sourcesBelow_eq_filterMap, List.filter_filter]
  induction t.entries with
  | nil => rfl
  | cons e entries ih =>
    have htest : (isSourceFile e && (isBelow base e && t.reaches gitignore root base e.1)) =
        (isSourceBelow base e && t.reaches gitignore root base e.1) := by
      simp only [isSourceFile, isBelow, isSourceBelow, Bool.and_assoc, Bool.and_comm,
        Bool.and_left_comm]
    rw [List.filterMap_cons, List.filter_cons, htest, ih]
    cases isSourceBelow base e && t.reaches gitignore root base e.1 <;> rfl

/-- A scan is made of what its walk comes to. -/
theorem scan_eq_collect (hkey : t.locate root = .ok base) (hdir : t.isDirectoryAt base = true)
    (gitignore : Bool) (filter : Option (List GlobToken)) :
    t.scan root gitignore filter = collect root base filter (t.visits gitignore root base) := by
  rw [scan_of_directory filter hkey hdir, collect, visits]
  dsimp only
  cases hinput : same root standardInput with
  | true =>
    rw [Bool.or_true, if_pos rfl]
    rfl
  | false =>
    have hno : ¬ (false = true) := by decide
    rw [Bool.or_false, if_neg hno, sourceSteps, ← sourcesBelow_eq_map]
    rfl

theorem precedes_iff (key other : Key) : precedes key other = true ↔ key = other ∨ key < other := by
  induction key generalizing other with
  | nil =>
    cases other with
    | nil => simp [precedes]
    | cons b others => simp [precedes]
  | cons a key ih =>
    cases other with
    | nil => simp [precedes]
    | cons b others =>
      rw [precedes, List.cons_lt_cons_iff, List.cons.injEq]
      by_cases hab : a = b
      · subst hab
        rw [if_pos rfl, ih]
        simp
      · rw [if_neg hab, decide_eq_true_eq]
        simp [hab]

theorem precedes_trans (a b c : Key) (hab : precedes a b = true) (hbc : precedes b c = true) :
    precedes a c = true := by
  rw [precedes_iff] at hab hbc ⊢
  rcases hab with rfl | hab
  · exact hbc
  · rcases hbc with rfl | hbc
    · exact .inr hab
    · exact .inr (lt_trans hab hbc)

theorem precedes_total (a b : Key) : (precedes a b || precedes b a) = true := by
  rw [Bool.or_eq_true, precedes_iff, precedes_iff]
  rcases lt_trichotomy a b with h | h | h
  · exact .inl (.inr h)
  · exact .inl (.inl h)
  · exact .inr (.inr h)

theorem precedes_antisymm {a b : Key} (hab : precedes a b = true) (hba : precedes b a = true) :
    a = b := by
  rw [precedes_iff] at hab hba
  rcases hab with h | hab
  · exact h
  · rcases hba with h | hba
    · exact h.symm
    · exact absurd hba (lt_asymm hab)

/-- Steps that all differ are strictly ordered once they are sorted. -/
theorem pairwise_mergeSort_lt {steps : List Key} (h : steps.Nodup) :
    (steps.mergeSort precedes).Pairwise (· < ·) := by
  have hsorted := List.pairwise_mergeSort precedes_trans precedes_total steps
  have hnodup : (steps.mergeSort precedes).Nodup :=
    (List.mergeSort_perm steps precedes).nodup_iff.mpr h
  refine hsorted.imp₂ ?_ hnodup
  intro a b hab hne
  exact ((precedes_iff a b).mp hab).resolve_left hne

/-- Sorting forgets the order. -/
theorem mergeSort_eq_of_perm {steps steps' : List Key} (h : steps'.Perm steps) :
    steps'.mergeSort precedes = steps.mergeSort precedes := by
  have hperm : (steps'.mergeSort precedes).Perm (steps.mergeSort precedes) :=
    ((List.mergeSort_perm steps' precedes).trans h).trans (List.mergeSort_perm steps precedes).symm
  exact hperm.eq_of_pairwise (fun _ _ _ _ => precedes_antisymm)
    (List.pairwise_mergeSort precedes_trans precedes_total steps')
    (List.pairwise_mergeSort precedes_trans precedes_total steps)

/-- The order of a walk makes no difference. -/
theorem collect_eq_of_perm (h : visited'.Perm visited) :
    collect root base filter visited' = collect root base filter visited := by
  have hsteps : (sourceSteps base filter visited').Perm (sourceSteps base filter visited) :=
    ((h.filter isSourceFile).map _).filter _
  rw [collect, collect, mergeSort_eq_of_perm hsteps, hsteps.isEmpty_eq]

/-- Whether some steps lead from a place to a source: a file whose name has something in front of
the extension, and a filter accepts the path. -/
structure IsSourceAt (t : Tree) (base : Key) (filter : Option (List GlobToken)) (names : Key) :
    Prop where
  file : (t.fileAt? (base ++ names)).isSome = true
  named : ∃ front stem, stem ≠ "" ∧ names = front ++ [stem ++ ".thrift"]
  accepted : filter.all (Glob.accepts · (ofParts names).toList) = true

theorem isBelow_iff {e : Key × Node} :
    isBelow base e = true ↔ ∃ names, names ≠ [] ∧ e.1 = base ++ names := by
  rw [isBelow, Bool.and_eq_true, List.isPrefixOf_iff_prefix, decide_eq_true_eq]
  constructor
  · rintro ⟨⟨names, hnames⟩, hlength⟩
    refine ⟨names, ?_, hnames.symm⟩
    rintro rfl
    rw [← hnames, List.append_nil] at hlength
    exact absurd hlength (lt_irrefl _)
  · rintro ⟨names, hne, he⟩
    rw [he, List.length_append]
    exact ⟨List.prefix_append base names, Nat.lt_add_of_pos_right (List.length_pos_iff.mpr hne)⟩

/-- An entry is what its place holds. -/
theorem node?_of_mem (ht : t.isProper = true) (hd : (Table.keys t.entries).Nodup) {e : Key × Node}
    (he : e ∈ t.entries) : t.node? e.1 = some e.2 := by
  have hentry := List.all_eq_true.mp ht e he
  simp only [Bool.and_eq_true, Bool.or_eq_true, Bool.not_eq_true', beq_iff_eq] at hentry
  rw [node?]
  split
  · next habove =>
    have hdir := hentry.2.resolve_left (by simp [habove])
    rw [hdir]
  · exact Table.lookup_of_mem hd he

theorem isSourceFile_iff {e : Key × Node} :
    isSourceFile e = true ↔ e.2 ≠ .directory ∧ isSource (e.1.getLastD "") = true := by
  rw [isSourceFile, Bool.and_eq_true, bne_iff_ne]

theorem thrift_append (stem : String) : stem ++ "." ++ "thrift" = stem ++ ".thrift" :=
  String.append_assoc

/-- A walk that comes to every entry once finds every source. -/
theorem mem_sourceSteps_iff (ht : t.isProper = true) (hd : (Table.keys t.entries).Nodup)
    (hvisited : visited.Perm (t.entries.filter (isBelow base))) :
    names ∈ sourceSteps base filter visited ↔ t.IsSourceAt base filter names := by
  rw [sourceSteps, List.mem_filter, List.mem_map]
  constructor
  · rintro ⟨⟨e, he, rfl⟩, hpass⟩
    obtain ⟨hmem, hfile⟩ := List.mem_filter.mp he
    obtain ⟨hentry, hbelow⟩ := List.mem_filter.mp (hvisited.mem_iff.mp hmem)
    obtain ⟨hdir, hsource⟩ := isSourceFile_iff.mp hfile
    obtain ⟨names, hne, hkey⟩ := isBelow_iff.mp hbelow
    have hproper := properName_of_mem ht hentry
    have hnode := node?_of_mem ht hd hentry
    -- the place is that of the base with the steps behind it, and these are what is kept
    rw [hkey, List.drop_left] at hpass ⊢
    rw [hkey] at hproper hnode hsource
    obtain ⟨front, last, rfl⟩ := (List.eq_nil_or_concat' names).resolve_left hne
    rw [← List.append_assoc, List.getLastD_concat, ← @List.getLastD_concat _ "" last front]
      at hsource
    obtain ⟨front', stem, hnames⟩ :=
      sourceNames_of_isSource hne (fun n hn => hproper n (List.mem_append_right base hn)) hsource
    refine ⟨fileAt?_isSome_iff.mpr ⟨e.2, hnode, hdir⟩, ⟨front', stem, hnames.stem, ?_⟩, hpass⟩
    rw [hnames.eq, thrift_append]
  · rintro ⟨hfile, ⟨front, stem, hstem, rfl⟩, hpass⟩
    obtain ⟨node, hnode, hdir⟩ := fileAt?_isSome_iff.mp hfile
    have hentry := mem_of_node? hnode hdir
    have hbelow : isBelow base (base ++ (front ++ [stem ++ ".thrift"]), node) = true :=
      isBelow_iff.mpr ⟨_, List.concat_ne_nil _ _, rfl⟩
    have hlast : ProperName (stem ++ "." ++ "thrift") := by
      rw [thrift_append]
      exact properName_of_mem ht hentry _ (by simp)
    have hsource : isSource (stem ++ ".thrift") = true := by
      rw [isSource, ← thrift_append, extension?_name hlast hstem (by decide)]
      exact beq_self_eq_true _
    refine ⟨⟨_, List.mem_filter.mpr ⟨hvisited.mem_iff.mpr (List.mem_filter.mpr ⟨hentry, hbelow⟩),
      isSourceFile_iff.mpr ⟨hdir, ?_⟩⟩, List.drop_left⟩, hpass⟩
    rw [← List.append_assoc, List.getLastD_concat]
    exact hsource

/-- A walk that comes to every entry once finds no source twice. -/
theorem nodup_sourceSteps (hd : (Table.keys t.entries).Nodup)
    (hvisited : visited.Perm (t.entries.filter (isBelow base))) :
    (sourceSteps base filter visited).Nodup := by
  have hkeys : (visited.map Prod.fst).Nodup := by
    rw [(hvisited.map Prod.fst).nodup_iff]
    exact hd.sublist (List.filter_sublist.map Prod.fst)
  have hfiles : ((visited.filter isSourceFile).map Prod.fst).Nodup :=
    hkeys.sublist (List.filter_sublist.map Prod.fst)
  have hbelow : ∀ e ∈ visited.filter isSourceFile, ∃ names, e.1 = base ++ names := by
    intro e he
    have hmem := hvisited.mem_iff.mp (List.mem_of_mem_filter he)
    obtain ⟨names, -, hkey⟩ := isBelow_iff.mp (List.mem_filter.mp hmem).2
    exact ⟨names, hkey⟩
  -- entries below one base that leave the same steps have the same place
  refine List.Nodup.filter _ (List.Nodup.map_on ?_ hfiles.of_map)
  intro e he e' he' hsame
  obtain ⟨names, hkey⟩ := hbelow e he
  obtain ⟨names', hkey'⟩ := hbelow e' he'
  rw [hkey, hkey', List.drop_left, List.drop_left] at hsame
  exact List.inj_on_of_nodup_map hfiles he he' (by rw [hkey, hkey', hsame])

/-- No file that rules are read from has a line. -/
structure NoRules (t : Tree) : Prop where
  plain (directory : Key) : t.linesAt (directory ++ [".ignore"]) = []
  git (directory : Key) : t.linesAt (directory ++ [".gitignore"]) = []
  exclude (directory : Key) : t.excludeLines directory = []

/-- The names of the files that rules are read from. -/
def ruleNames : List String := [".ignore", ".gitignore", "exclude"]

def lacksRuleFiles (t : Tree) : Bool :=
  t.entries.all fun e => e.2 == .directory || !ruleNames.contains (e.1.getLastD "")

theorem linesAt_ruleName (h : t.lacksRuleFiles = true) {name : String} (hname : name ∈ ruleNames)
    (front : Key) : t.linesAt (front ++ [name]) = [] := by
  have hnone (node : Node) (hdir : node ≠ .directory) : t.node? (front ++ [name]) ≠ some node := by
    intro hnode
    have hentry := List.all_eq_true.mp h _ (mem_of_node? hnode hdir)
    rw [List.getLastD_concat] at hentry
    simp [hdir, hname] at hentry
  unfold linesAt
  split
  · next content hnode => exact absurd hnode (hnone _ (by simp))
  · next bytes hnode => exact absurd hnode (hnone _ (by simp))
  · rfl

/-- Without files of these names there are no rules, wherever repositories keep their data. -/
theorem noRules_of_lacksRuleFiles (h : t.lacksRuleFiles = true) : t.NoRules := by
  have hexclude (front : Key) : t.linesAt (front ++ ["exclude"]) = [] :=
    linesAt_ruleName h (by decide) front
  refine ⟨linesAt_ruleName h (by decide), linesAt_ruleName h (by decide), fun directory => ?_⟩
  unfold excludeLines
  dsimp only
  split
  · have hplace := hexclude (directory ++ [".git", "info"])
    rwa [List.append_assoc] at hplace ⊢
  · split
    · next shared hshared =>
      unfold linesOf
      split
      · next key hlocate =>
        rw [← keyOf_of_locate hlocate, keyOf_exclude]
        exact hexclude _
      · rfl
    · rfl

theorem verdict?_of_no_lines {lines : Key → List String} (h : ∀ directory, lines directory = [])
    (isDirectory : Bool) (sites : List Site) : verdict? lines isDirectory sites = none := by
  rw [verdict?, List.findSome?_eq_none_iff]
  intro s _
  rw [h]
  rfl

theorem NoRules.reaches (h : t.NoRules) (gitignore : Bool) (root : String) (base key : Key) :
    t.reaches gitignore root base key = true := by
  have hshown (key : Key) : t.isHidden gitignore root base key = false := by
    unfold isHidden
    dsimp only
    rw [verdict?_of_no_lines h.plain, verdict?_of_no_lines h.git, verdict?_of_no_lines h.exclude]
    rfl
  rw [Tree.reaches, List.all_eq_true]
  intro n _
  rw [hshown]
  rfl

/-- Where nothing is hidden a walk comes to everything. -/
theorem NoRules.visits (h : t.NoRules) (gitignore : Bool)
    (hroot : same root standardInput = false) :
    t.visits gitignore root base = t.entries.filter (isBelow base) := by
  have hno : ¬ (false = true) := by decide
  rw [Tree.visits, hroot, if_neg hno]
  exact List.filter_congr fun e _ => by rw [h.reaches, Bool.and_true]

/-- The steps from a root to all sources below it, in order. Joined to the root, the relative path
of each is its path; it leads to the place of the source, and without the components of the root
the steps are left. -/
structure Finds (t : Tree) (root : String) (filter : Option (List GlobToken)) (found : List Key) :
    Prop where
  sources : ∀ names, names ∈ found ↔ t.IsSourceAt (keyOf t.home root) filter names
  ordered : found.Pairwise (· < ·)
  relative : ∀ names ∈ found, parts (ofParts names) = names
  joined : ∀ names ∈ found, join root (ofParts names) = descend root names
  place : ∀ names ∈ found, keyOf t.home (descend root names) = keyOf t.home root ++ names
  stripped : ∀ names ∈ found, components (descend root names) = components root ++ names

theorem IsSourceAt.proper (ht : t.isProper = true) (h : t.IsSourceAt base filter names) :
    names ≠ [] ∧ ∀ n ∈ names, ProperName n := by
  obtain ⟨node, hnode, hdir⟩ := fileAt?_isSome_iff.mp h.file
  obtain ⟨front, stem, -, hnames⟩ := h.named
  refine ⟨hnames ▸ List.concat_ne_nil _ _, fun n hn => ?_⟩
  exact properName_of_mem ht (mem_of_node? hnode hdir) n (List.mem_append_right base hn)

theorem finds_mergeSort (ht : t.isProper = true) (hd : (Table.keys t.entries).Nodup)
    (hvisited : visited.Perm (t.entries.filter (isBelow (keyOf t.home root)))) :
    t.Finds root filter ((sourceSteps (keyOf t.home root) filter visited).mergeSort precedes) := by
  have hsources (names : Key) :
      names ∈ (sourceSteps (keyOf t.home root) filter visited).mergeSort precedes ↔
        t.IsSourceAt (keyOf t.home root) filter names :=
    List.mem_mergeSort.trans (mem_sourceSteps_iff ht hd hvisited)
  have hproper {names : Key}
      (h : names ∈ (sourceSteps (keyOf t.home root) filter visited).mergeSort precedes) :=
    ((hsources names).mp h).proper ht
  refine ⟨hsources, pairwise_mergeSort_lt (nodup_sourceSteps hd hvisited), ?_, ?_, ?_, ?_⟩
  · intro names h
    exact parts_ofParts (hproper h).1 fun n hn => ((hproper h).2 n hn).no_slash
  · intro names h
    exact join_ofParts (hproper h).1 (hproper h).2 root
  · intro names h
    obtain ⟨habsolute, hsteps⟩ := steps_descend (hproper h).2 root
    exact keyOf_names habsolute hsteps (hproper h).2 t.home
  · intro names h
    exact components_descend (hproper h).2 root

/-- What is found is the only list in order of these sources. -/
theorem Finds.eq_of_perm (ht : t.isProper = true) (hd : (Table.keys t.entries).Nodup)
    {found sorted : List Key} (h : t.Finds root filter found)
    (hperm : sorted.Perm
      (sourceSteps (keyOf t.home root) filter (t.entries.filter (isBelow (keyOf t.home root)))))
    (hsorted : sorted.Pairwise (· < ·)) : found = sorted := by
  have hmem (names : Key) : names ∈ found ↔ names ∈ sorted :=
    (h.sources names).trans ((mem_sourceSteps_iff ht hd .rfl).symm.trans hperm.mem_iff.symm)
  have hnodup {steps : List Key} (h : steps.Pairwise (· < ·)) : steps.Nodup := h.imp fun h => h.ne
  have hsame : found.Perm sorted :=
    (List.perm_ext_iff_of_nodup (hnodup h.ordered) (hnodup hsorted)).mpr hmem
  exact hsame.eq_of_pairwise (fun _ _ _ _ hab hba => absurd hba hab.asymm) h.ordered hsorted

/-- A scan of a directory finds all sources below it and nothing else, each once and in order, in
whatever order a walk comes to the entries; it fails exactly if there is none. A walk comes to all
entries where no rule hides any, unless the root stands for the standard input. -/
theorem scan_finds (ht : t.isProper = true) (hd : (Table.keys t.entries).Nodup)
    (hroot : t.isDirectory root = true) (filter : Option (List GlobToken))
    (hvisited : visited.Perm (t.entries.filter (isBelow (keyOf t.home root)))) :
    ∃ found, t.Finds root filter found ∧
      collect root (keyOf t.home root) filter visited =
        (if found = [] then .error (.noSources root) else .ok (found.map (Source.below root))) ∧
      ∀ gitignore, t.NoRules → same root standardInput = false →
        t.scan root gitignore filter = collect root (keyOf t.home root) filter visited := by
  refine ⟨_, finds_mergeSort ht hd hvisited, ?_, fun gitignore hrules hinput => ?_⟩
  · have hsame := List.mergeSort_perm (sourceSteps (keyOf t.home root) filter visited) precedes
    rw [collect, ← hsame.isEmpty_eq]
    simp only [List.isEmpty_iff]
  · obtain ⟨key, hkey, hdir⟩ := isDirectory_iff.mp hroot
    rw [scan_eq_collect hkey hdir, hrules.visits gitignore hinput, ← keyOf_of_locate hkey]
    exact collect_eq_of_perm hvisited.symm

/-- Names with several dots, a directory that is named like a source, a name that is nothing but an
extension, and a source away from the working directory. -/
def scattered : Tree :=
  { entries := [(["w", "idl", "user.thrift"], .text ""), (["w", "idl"], .directory),
      (["w", "idl", "a-b.thrift"], .text ""), (["w", "idl", "a"], .directory),
      (["w", "idl", "a", ".pets.v2.thrift"], .text ""), (["w", "idl", "dir.thrift"], .directory),
      (["w", "idl", ".thrift"], .text ""), (["w", "idl", "old.thrift.bak"], .text ""),
      (["b.thrift"], .text "")]
    home := ["w"] }

theorem scan_finds_scattered :
    scattered.scan "./idl/" true none =
      .ok [⟨"./idl/a/.pets.v2.thrift", "a/.pets.v2.thrift"⟩,
        ⟨"./idl/a-b.thrift", "a-b.thrift"⟩, ⟨"./idl/user.thrift", "user.thrift"⟩] ∧
    scattered.scan "idl/../.." true none =
      .ok [⟨"idl/../../b.thrift", "b.thrift"⟩,
        ⟨"idl/../../w/idl/a/.pets.v2.thrift", "w/idl/a/.pets.v2.thrift"⟩,
        ⟨"idl/../../w/idl/a-b.thrift", "w/idl/a-b.thrift"⟩,
        ⟨"idl/../../w/idl/user.thrift", "w/idl/user.thrift"⟩] := by
  have hproper : scattered.isProper = true := by decide
  have hkeys : (Table.keys scattered.entries).Nodup := by decide
  have hrules : scattered.NoRules := noRules_of_lacksRuleFiles (by decide)
  constructor
  · obtain ⟨found, hfound, hresult, hscan⟩ := scan_finds hproper hkeys
      (by decide +kernel : scattered.isDirectory "./idl/" = true) none (List.reverse_perm _)
    obtain rfl : found = [["a", ".pets.v2.thrift"], ["a-b.thrift"], ["user.thrift"]] :=
      hfound.eq_of_perm hproper hkeys (by decide +kernel) (by decide)
    rw [hscan true hrules (by decide), hresult]
    decide
  · obtain ⟨found, hfound, hresult, hscan⟩ := scan_finds hproper hkeys
      (by decide +kernel : scattered.isDirectory "idl/../.." = true) none (List.reverse_perm _)
    obtain rfl : found = [["b.thrift"], ["w", "idl", "a", ".pets.v2.thrift"],
        ["w", "idl", "a-b.thrift"], ["w", "idl", "user.thrift"]] :=
      hfound.eq_of_perm hproper hkeys (by decide +kernel) (by decide)
    rw [hscan true hrules (by decide), hresult]
    decide

end Tree
end Files
end SchemaGen
