import SchemaGen.Proofs.Files.Path
import SchemaGen.Proofs.Schema.Table

namespace SchemaGen

/-- A computation in two parts gives a result exactly if both do. -/
theorem bind_eq_ok {ε α β : Type} {x : Except ε α} {f : α → Except ε β} {b : β} :
    (x >>= f) = .ok b ↔ ∃ a, x = .ok a ∧ f a = .ok b := by
  cases x with
  | error e =>
    refine ⟨fun h => ?_, fun ⟨a, h, _⟩ => ?_⟩ <;> cases h
  | ok a =>
    refine ⟨fun h => ⟨a, rfl, h⟩, fun ⟨a', h, hf⟩ => ?_⟩
    obtain rfl := Except.ok.inj h
    exact hf

theorem map_eq_ok {ε α β : Type} {x : Except ε α} {f : α → β} {b : β} :
    x.map f = .ok b ↔ ∃ a, x = .ok a ∧ f a = b := by
  cases x with
  | error e => simp [Except.map]
  | ok a => simp [Except.map]

theorem guard_eq_ok {ε α : Type} {c : Prop} [Decidable c] {e : ε} {x : Except ε α} {a : α} :
    (if c then .error e else x) = .ok a ↔ ¬ c ∧ x = .ok a := by
  split <;> simp_all

namespace Files.Tree

open Files.Path

variable {t t' t'' : Tree} {made written : Key → Prop} {home key place : Key} {path : String}

theorem stepTo_name {name : String} (hdot : name ≠ ".") (hup : name ≠ "..") (key : Key) :
    stepTo key name = key ++ [name] := by
  rw [stepTo, if_neg hdot, if_neg hup]

theorem stepTo_up (key : Key) : stepTo key ".." = key.dropLast := by
  rw [stepTo, if_neg (by decide), if_pos rfl]

/-- Whether a step finds something. -/
def Enters (t : Tree) (key : Key) (name : String) : Prop :=
  name.utf8ByteSize ≤ longestName ∧ (t.node? (stepTo key name)).isSome = true

theorem walk_cons {name : String} {rest : List String} :
    t.walk key (name :: rest) = .ok place ↔
      t.isDirectoryAt key = true ∧ t.Enters key name ∧
        t.walk (stepTo key name) rest = .ok place := by
  rw [walk, guard_eq_ok, guard_eq_ok, guard_eq_ok, Enters]
  simp [and_assoc, Option.isSome_iff_ne_none]

theorem walk_append {front back : List String} :
    t.walk key (front ++ back) = .ok place ↔
      ∃ mid, t.walk key front = .ok mid ∧ t.walk mid back = .ok place := by
  induction front generalizing key with
  | nil => simp [walk]
  | cons name front ih =>
    simp only [List.cons_append, walk_cons, ih]
    constructor
    · rintro ⟨hd, he, mid, hmid, hback⟩
      exact ⟨mid, ⟨hd, he, hmid⟩, hback⟩
    · rintro ⟨mid, ⟨hd, he, hmid⟩, hback⟩
      exact ⟨hd, he, mid, hmid, hback⟩

/-- A walk leads where its steps do. -/
theorem walk_eq {names : List String} (h : t.walk key names = .ok place) :
    place = names.foldl stepTo key := by
  induction names generalizing key with
  | nil => exact (Except.ok.inj h).symm
  | cons name names ih => exact ih (walk_cons.mp h).2.2

theorem node?_above (h : key <+: t.home) : t.node? key = some .directory := by
  rw [node?, if_pos (List.isPrefixOf_iff_prefix.mpr h)]

theorem isDirectoryAt_above (h : key <+: t.home) : t.isDirectoryAt key = true := by
  rw [isDirectoryAt, node?_above h]
  rfl

theorem start_above (home : Key) (path : String) : start home path <+: home := by
  unfold start
  split
  · exact List.nil_prefix
  · exact List.prefix_rfl

/-- All places on the way to a place are directories. -/
def Rooted (t : Tree) (key : Key) : Prop := ∀ front, front <+: key → front ≠ key →
  t.isDirectoryAt front = true

theorem rooted_start (t : Tree) (path : String) : t.Rooted (start t.home path) :=
  fun _ hp _ => isDirectoryAt_above (hp.trans (start_above t.home path))

theorem Rooted.concat {name : String} (h : t.Rooted key) (hd : t.isDirectoryAt key = true) :
    t.Rooted (key ++ [name]) := by
  intro front hp hne
  rcases List.prefix_concat_iff.mp hp with rfl | hp
  · exact absurd rfl hne
  · by_cases hk : front = key
    · exact hk ▸ hd
    · exact h front hp hk

theorem Rooted.dropLast (h : t.Rooted key) :
    t.Rooted key.dropLast ∧ t.isDirectoryAt key.dropLast = true := by
  have hdrop := List.dropLast_prefix key
  by_cases hnil : key = []
  · subst hnil
    exact ⟨h, isDirectoryAt_above List.nil_prefix⟩
  · have hshort {front : Key} (hp : front <+: key.dropLast) : front ≠ key := by
      intro he
      have hlength := hp.length_le
      have hpos := List.length_pos_iff.mpr hnil
      rw [he, List.length_dropLast] at hlength
      omega
    exact ⟨fun front hp _ => h front (hp.trans hdrop) (hshort hp),
      h _ hdrop (hshort List.prefix_rfl)⟩

theorem Rooted.stepTo {name : String} (h : t.Rooted key) (hd : t.isDirectoryAt key = true) :
    t.Rooted (stepTo key name) := by
  unfold Tree.stepTo
  split
  · exact h
  · split
    · exact h.dropLast.1
    · exact h.concat hd

theorem Rooted.walk {names : List String} (h : t.Rooted key) (hw : t.walk key names = .ok place) :
    t.Rooted place := by
  induction names generalizing key with
  | nil => exact Except.ok.inj hw ▸ h
  | cons name names ih =>
    obtain ⟨hd, -, hrest⟩ := walk_cons.mp hw
    exact ih (h.stepTo hd) hrest

/-- A walk that ends in a step upwards or to the same directory leads to a directory. -/
theorem isDirectoryAt_of_walk {front : List String} {name : String}
    (h : t.walk (start t.home path) (front ++ [name]) = .ok place)
    (hname : name = "." ∨ name = "..") : t.isDirectoryAt place = true := by
  obtain ⟨mid, hmid, hlast⟩ := walk_append.mp h
  obtain ⟨hd, -, hplace⟩ := walk_cons.mp hlast
  obtain rfl := Except.ok.inj hplace
  rcases hname with rfl | rfl
  · exact hd
  · rw [stepTo_up]
    exact ((rooted_start t path).walk hmid).dropLast.2

theorem node?_set (t : Tree) (key other : Key) (node : Node) :
    (t.set key node).node? other =
      if other.isPrefixOf t.home then some .directory
      else if other = key then some node else t.node? other := by
  unfold node? set
  split
  · rfl
  · exact Table.lookup_insert key other node t.entries

theorem node?_ne_none {t : Tree} {key : Key} {node : Node} (h : (key, node) ∈ t.entries) :
    t.node? key ≠ none := by
  unfold node?
  split
  · simp
  · intro hnone
    simpa using List.lookup_eq_none_iff.mp hnone _ h

theorem mem_of_node? {node : Node} (h : t.node? key = some node) (hdir : node ≠ .directory) :
    (key, node) ∈ t.entries := by
  unfold node? at h
  split at h
  · exact absurd (Option.some.inj h).symm hdir
  · exact Table.mem_of_lookup h

/-- What a place holds, if it is a file. -/
def fileAt? (t : Tree) (key : Key) : Option Node := (t.node? key).filter (· != .directory)

theorem fileAt?_isSome_iff :
    (t.fileAt? key).isSome = true ↔ ∃ node, t.node? key = some node ∧ node ≠ .directory := by
  rw [fileAt?, Option.isSome_filter, Option.any_eq_true]
  simp

/-- What may have happened between two trees: at a place a directory was made where nothing was, or
a text was written where no directory was. -/
structure Changes (made written : Key → Prop) (t t' : Tree) : Prop where
  home : t'.home = t.home
  places (key : Key) : t'.node? key = t.node? key ∨
    (made key ∧ t.node? key = none ∧ t'.node? key = some .directory) ∨
    (written key ∧ t.node? key ≠ some .directory ∧ ∃ text, t'.node? key = some (.text text))

namespace Changes

theorem refl (t : Tree) : Changes made written t t := ⟨rfl, fun _ => .inl rfl⟩

theorem trans (h : Changes made written t t') (k : Changes made written t' t'') :
    Changes made written t t'' := by
  refine ⟨k.home.trans h.home, fun key => ?_⟩
  rcases k.places key with hsame | ⟨hmade, hnone, hdir⟩ | ⟨hwritten, hdir, htext⟩
  · rw [hsame]
    exact h.places key
  · rcases h.places key with hsame | ⟨-, -, hnode⟩ | ⟨-, -, text, hnode⟩
    · exact .inr (.inl ⟨hmade, hsame ▸ hnone, hdir⟩)
    · rw [hnode] at hnone
      cases hnone
    · rw [hnode] at hnone
      cases hnone
  · rcases h.places key with hsame | ⟨-, -, hnode⟩ | ⟨-, hnode, -⟩
    · exact .inr (.inr ⟨hwritten, hsame ▸ hdir, htext⟩)
    · exact absurd hnode hdir
    · exact .inr (.inr ⟨hwritten, hnode, htext⟩)

/-- Setting a node changes no other place. -/
theorem of_set {node : Node}
    (h : (made key ∧ t.node? key = none ∧ node = .directory) ∨
      (written key ∧ t.node? key ≠ some .directory ∧ ∃ text, node = .text text)) :
    Changes made written t (t.set key node) := by
  refine ⟨rfl, fun other => ?_⟩
  rw [node?_set]
  split
  · next habove => exact .inl (node?_above (List.isPrefixOf_iff_prefix.mp habove)).symm
  · split
    · next he =>
      subst he
      exact .inr (h.imp (fun ⟨hm, hnone, hnode⟩ => ⟨hm, hnone, congrArg some hnode⟩)
        fun ⟨hw, hdir, text, hnode⟩ => ⟨hw, hdir, text, congrArg some hnode⟩)
    · exact .inl rfl

theorem directory (hnone : t.node? key = none) (hm : made key) :
    Changes made written t (t.set key .directory) :=
  of_set (.inl ⟨hm, hnone, rfl⟩)

theorem text (hdir : t.node? key ≠ some .directory) (hw : written key) (text : String) :
    Changes made written t (t.set key (.text text)) :=
  of_set (.inr ⟨hw, hdir, text, rfl⟩)

variable (h : Changes made written t t')

include h

theorem isDirectoryAt (hd : t.isDirectoryAt key = true) : t'.isDirectoryAt key = true := by
  rw [Tree.isDirectoryAt, beq_iff_eq] at hd ⊢
  rcases h.places key with hsame | ⟨-, -, hnode⟩ | ⟨-, hnode, -⟩
  · rw [hsame, hd]
  · exact hnode
  · exact absurd hd hnode

theorem isSome (hs : (t.node? key).isSome = true) : (t'.node? key).isSome = true := by
  rcases h.places key with hsame | ⟨-, -, hnode⟩ | ⟨-, -, text, hnode⟩
  · rw [hsame, hs]
  · rw [hnode]
    rfl
  · rw [hnode]
    rfl

theorem node_eq (hs : t.node? key ≠ none) (hw : ¬ written key) : t'.node? key = t.node? key := by
  rcases h.places key with hsame | ⟨-, hnode, -⟩ | ⟨hwritten, -, -⟩
  · exact hsame
  · exact absurd hnode hs
  · exact absurd hwritten hw

theorem node_none (hs : t.node? key = none) (hm : ¬ made key) (hw : ¬ written key) :
    t'.node? key = none := by
  rcases h.places key with hsame | ⟨hmade, -, -⟩ | ⟨hwritten, -, -⟩
  · rw [hsame, hs]
  · exact absurd hmade hm
  · exact absurd hwritten hw

end Changes

theorem Changes.walk {names : List String} (h : Changes made written t t')
    (hw : t.walk key names = .ok place) : t'.walk key names = .ok place := by
  induction names generalizing key with
  | nil => exact hw
  | cons name names ih =>
    obtain ⟨hd, he, hrest⟩ := walk_cons.mp hw
    exact walk_cons.mpr ⟨h.isDirectoryAt hd, ⟨he.1, h.isSome he.2⟩, ih hrest⟩

/-- A tree that comes from another step by step: each step makes a directory where nothing is, or
writes a text where no directory is. -/
inductive Edits (made written : Key → Prop) (t : Tree) : Tree → Prop where
  | refl : Edits made written t t
  | directory {t' : Tree} {key : Key} (h : Edits made written t t') (hnone : t'.node? key = none)
      (hm : made key) : Edits made written t (t'.set key .directory)
  | text {t' : Tree} {key : Key} (h : Edits made written t t')
      (hdir : t'.node? key ≠ some .directory) (hw : written key) (text : String) :
      Edits made written t (t'.set key (.text text))

namespace Edits

theorem trans (h : Edits made written t t') (k : Edits made written t' t'') :
    Edits made written t t'' := by
  induction k with
  | refl => exact h
  | directory _ hnone hm ih => exact ih.directory hnone hm
  | text _ hdir hw text ih => exact ih.text hdir hw text

theorem mono {made' written' : Key → Prop} (h : Edits made written t t')
    (hm : ∀ key, made key → made' key) (hw : ∀ key, written key → written' key) :
    Edits made' written' t t' := by
  induction h with
  | refl => exact .refl
  | directory _ hnone hmade ih => exact ih.directory hnone (hm _ hmade)
  | text _ hdir hwritten text ih => exact ih.text hdir (hw _ hwritten) text

/-- What may have happened in all at each place. -/
theorem changes (h : Edits made written t t') : Changes made written t t' := by
  induction h with
  | refl => exact .refl t
  | directory _ hnone hm ih => exact ih.trans (.directory hnone hm)
  | text _ hdir hw text ih => exact ih.trans (.text hdir hw text)

/-- What is taken from the entries stays the same, if nothing is taken from directories or from what
is written. -/
theorem filterMap_entries {β : Type} {f : Key × Node → Option β} (h : Edits made written t t')
    (hd : ∀ key, f (key, .directory) = none)
    (hw : ∀ key node, written key → f (key, node) = none) :
    t'.entries.filterMap f = t.entries.filterMap f := by
  induction h with
  | refl => rfl
  | directory _ hnone hm ih =>
    refine (Table.filterMap_insert (hd _) fun node hmem => ?_).trans ih
    exact absurd hnone (node?_ne_none hmem)
  | text _ hdir hwritten text ih =>
    exact (Table.filterMap_insert (hw _ _ hwritten) fun node _ => hw _ node hwritten).trans ih

end Edits

theorem foldl_stepTo {names : List String} (h : ∀ n ∈ names, ProperName n) (key : Key) :
    names.foldl stepTo key = key ++ names := by
  induction names generalizing key with
  | nil => rw [List.foldl_nil, List.append_nil]
  | cons n names ih =>
    rw [List.forall_mem_cons] at h
    rw [List.foldl_cons, stepTo_name h.1.ne_dot h.1.ne_up, ih h.2, List.append_assoc,
      List.singleton_append]

/-- A place that is given by a directory and the names below it. -/
theorem keyOf_names {path dir : String} {names : List String}
    (habsolute : isAbsolute path = isAbsolute dir) (hsteps : steps path = steps dir ++ names)
    (hp : ∀ n ∈ names, ProperName n) (home : Key) :
    keyOf home path = keyOf home dir ++ names := by
  rw [keyOf, start, habsolute, hsteps, List.foldl_append, foldl_stepTo hp]
  rfl

theorem keyOf_join {names : List String} (h : ∀ n ∈ names, ProperName n) (home : Key)
    (dir : String) : keyOf home (join dir (ofParts names)) = keyOf home dir ++ names := by
  have hnames : ∀ n ∈ names, n ≠ "" ∧ '/' ∉ n.toList :=
    fun n hn => ⟨(h n hn).nonempty, (h n hn).no_slash⟩
  have hrelative := isAbsolute_names hnames
  refine keyOf_names (isAbsolute_join hrelative dir) ?_ h home
  rw [steps_join hrelative, steps_ofParts hnames]

theorem locate_eq_ok : t.locate path = .ok key ↔
    checkPath path = .ok () ∧ t.walk (start t.home path) (steps path) = .ok key ∧
      (endsInSlash path = true → t.isDirectoryAt key = true) := by
  simp only [locate, bind, Except.bind, throw, throwThe, MonadExceptOf.throw, pure, Except.pure]
  cases checkPath path with
  | error fault => simp
  | ok u =>
    cases t.walk (start t.home path) (steps path) with
    | error fault => simp
    | ok place =>
      rw [guard_eq_ok]
      refine ⟨fun ⟨hslash, he⟩ => ?_, fun ⟨_, he, hslash⟩ => ?_⟩
      · obtain rfl := Except.ok.inj he
        exact ⟨rfl, rfl, by simpa using hslash⟩
      · obtain rfl := Except.ok.inj he
        exact ⟨by simpa using hslash, rfl⟩

theorem keyOf_of_locate (h : t.locate path = .ok key) : keyOf t.home path = key :=
  (walk_eq (locate_eq_ok.mp h).2.1).symm

theorem has_iff : t.has path = true ↔ ∃ key, t.locate path = .ok key := by
  rw [has]
  cases t.locate path with
  | error fault => simp [Except.toOption]
  | ok key => simp [Except.toOption]

theorem Changes.locate (h : Changes made written t t') (hl : t.locate path = .ok key) :
    t'.locate path = .ok key := by
  obtain ⟨hcheck, hwalk, hslash⟩ := locate_eq_ok.mp hl
  exact locate_eq_ok.mpr
    ⟨hcheck, h.home ▸ h.walk hwalk, fun he => h.isDirectoryAt (hslash he)⟩

theorem readText_eq_ok {text : String} :
    t.readText path = .ok text ↔
      ∃ key, t.locate path = .ok key ∧ t.node? key = some (.text text) := by
  rw [readText, bind_eq_ok]
  refine exists_congr fun key => and_congr_right fun _ => ?_
  split
  · next content hnode =>
    rw [hnode, Option.some.injEq, Node.text.injEq]
    exact ⟨Except.ok.inj, congrArg Except.ok⟩
  all_goals
    next hnode => simp [hnode, throw, throwThe, MonadExceptOf.throw]

/-- A text stays what it is unless something is written to its place. -/
theorem Changes.readText {text : String} (h : Changes made written t t')
    (hr : t.readText path = .ok text) (hw : ¬ written (keyOf t.home path)) :
    t'.readText path = .ok text := by
  obtain ⟨key, hlocate, hnode⟩ := readText_eq_ok.mp hr
  rw [keyOf_of_locate hlocate] at hw
  refine readText_eq_ok.mpr ⟨key, h.locate hlocate, ?_⟩
  rw [h.node_eq (by simp [hnode]) hw, hnode]

/-- A path that a text is read from ends in the name of an entry. -/
theorem last_of_readText {front : List String} {name text : String}
    (h : t.readText path = .ok text) (hsteps : steps path = front ++ [name]) :
    name ≠ "." ∧ name ≠ ".." := by
  obtain ⟨key, hlocate, hnode⟩ := readText_eq_ok.mp h
  obtain ⟨-, hwalk, -⟩ := locate_eq_ok.mp hlocate
  rw [hsteps] at hwalk
  refine ⟨fun hname => ?_, fun hname => ?_⟩
  · have hdir := isDirectoryAt_of_walk hwalk (.inl hname)
    simp [isDirectoryAt, hnode] at hdir
  · have hdir := isDirectoryAt_of_walk hwalk (.inr hname)
    simp [isDirectoryAt, hnode] at hdir

end Files.Tree
end SchemaGen
