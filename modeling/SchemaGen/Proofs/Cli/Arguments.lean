import SchemaGen.Cli.Arguments
import SchemaGen.Proofs.Files.Tree
import SchemaGen.Proofs.Idl.Lexeme

namespace SchemaGen.Cli

variable {specs : List OptionSpec} {spec : OptionSpec} {given given' : Given}

/-- Whether a value of an option is given and empty. -/
def Filled (name : String) (given : Given) : Prop := ∀ e ∈ given, e.1 = name → e.2 ≠ ""

theorem give_eq_ok {value : String} (h : give spec value given = .ok given') :
    (spec.isPath = true → value ≠ "") ∧ given' = given ++ [(spec.name, value)] := by
  obtain ⟨hfree, h⟩ := guard_eq_ok.mp h
  refine ⟨fun hpath hvalue => hfree ?_, (Except.ok.inj h).symm⟩
  rw [hpath, hvalue]
  simp

/-- A step that takes an option adds its value, and leaves all arguments behind it or all but a
value. -/
theorem giveNext_eq_ok {attached : Option String} {rest rest' : List String}
    (h : giveNext spec attached rest given = .ok (given', rest')) :
    ∃ value, (spec.isPath = true → spec.takesValue = true → value ≠ "") ∧
      given' = given ++ [(spec.name, value)] ∧
      (rest' = rest ∨ ∃ next, isValue next = true ∧ rest = next :: rest') := by
  unfold Cli.giveNext at h
  split at h
  · obtain ⟨g, hgive, he⟩ := map_eq_ok.mp h
    obtain ⟨rfl, rfl⟩ := Prod.mk.inj he
    obtain ⟨hpath, hgiven⟩ := give_eq_ok hgive
    exact ⟨_, fun hp _ => hpath hp, hgiven, .inl rfl⟩
  · split at h
    · next hvalue =>
      obtain ⟨g, hgive, he⟩ := map_eq_ok.mp h
      obtain ⟨rfl, rfl⟩ := Prod.mk.inj he
      obtain ⟨hpath, hgiven⟩ := give_eq_ok hgive
      exact ⟨_, fun hp _ => hpath hp, hgiven, .inr ⟨_, hvalue, rfl⟩⟩
    · cases h
  · cases h
  · cases h
  · next htakes =>
    obtain ⟨g, hgive, he⟩ := map_eq_ok.mp h
    obtain ⟨rfl, rfl⟩ := Prod.mk.inj he
    refine ⟨_, fun _ htakes' => ?_, (give_eq_ok hgive).2, .inl rfl⟩
    rw [htakes] at htakes'
    cases htakes'

/-- Reading goes on behind an option of the command, or ends behind two dashes. -/
theorem readOptionsUpTo_cons {bound : Nat} {arg : String} {rest : List String}
    (h : readOptionsUpTo specs (bound + 1) (arg :: rest) given = .ok given') :
    (∃ spec ∈ specs, ∃ attached next rest',
        (∀ name value, Argument.ofString arg = .long name value → spec.name = name) ∧
        giveNext spec attached rest given = .ok (next, rest') ∧
        readOptionsUpTo specs bound rest' next = .ok given') ∨
      (arg = "--" ∧ rest = [] ∧ readOptionsUpTo specs bound [] given = .ok given') := by
  rw [Cli.readOptionsUpTo] at h
  split at h
  · cases h
  · cases h
  · next name value _ harg =>
    split at h
    · next spec hfind =>
      obtain ⟨⟨next, rest'⟩, hfirst, hrest⟩ := bind_eq_ok.mp h
      refine .inl ⟨spec, List.mem_of_find?_eq_some hfind, value, next, rest', ?_, hfirst, hrest⟩
      intro other value' hother
      obtain ⟨rfl, -⟩ := Argument.long.inj (harg.symm.trans hother)
      simpa using List.find?_some hfind
    · cases h
  · next harg =>
    split at h
    · next spec hfind =>
      obtain ⟨⟨next, rest'⟩, hfirst, hrest⟩ := bind_eq_ok.mp h
      refine .inl ⟨spec, List.mem_of_find?_eq_some hfind, _, next, rest', ?_, hfirst, hrest⟩
      intro other value' hother
      cases harg.symm.trans hother
    · cases h
  · split at h
    · next hlast =>
      rw [Bool.and_eq_true, decide_eq_true_eq, List.isEmpty_iff] at hlast
      exact .inr ⟨hlast.1, hlast.2, h⟩
    · cases h

theorem Filled.readOptionsUpTo {name : String} {bound : Nat} {args : List String}
    (hspecs : ∀ spec ∈ specs, spec.name = name → spec.isPath = true ∧ spec.takesValue = true)
    (hg : Filled name given) (h : readOptionsUpTo specs bound args given = .ok given') :
    Filled name given' := by
  induction bound generalizing args given with
  | zero =>
    cases args with
    | nil => exact Except.ok.inj h ▸ hg
    | cons arg rest => cases h
  | succ bound ih =>
    cases args with
    | nil => exact Except.ok.inj h ▸ hg
    | cons arg rest =>
      rcases readOptionsUpTo_cons h with
        ⟨spec, hm, _, next, rest', -, hfirst, hrest⟩ | ⟨-, -, hrest⟩
      · obtain ⟨value, hvalue, rfl, -⟩ := giveNext_eq_ok hfirst
        refine ih (List.forall_mem_append.mpr ⟨hg, List.forall_mem_singleton.mpr ?_⟩) hrest
        intro hname
        exact hvalue (hspecs spec hm hname).1 (hspecs spec hm hname).2
      · exact ih hg hrest

theorem Filled.lookup {name value : String} (hg : Filled name given)
    (h : given.lookup name = some value) : value ≠ "" := by
  obtain ⟨front, back, hsplit, -⟩ := List.lookup_eq_some_iff.mp h
  exact hg (name, value) (hsplit ▸ List.mem_append_right front List.mem_cons_self) rfl

/-- A generation that a command line asks for is that of the options behind its name. -/
theorem generate_given {args : List String} {input : String} {dryRun : Bool}
    {config filter : Option String} {overrides : Overrides}
    (h : command? args = some (.generate input dryRun config filter overrides)) :
    ∃ rest given, readOptions generateOptions rest = .ok given ∧
      config = given.lookup "config" := by
  have hparse : parse args = .ok (.generate input dryRun config filter overrides) := by
    unfold command? at h
    split at h
    · next c hc => rw [hc, Option.some.inj h]
    · cases h
    · cases h
  unfold parse at hparse
  split at hparse
  · next rest =>
    obtain ⟨given, hgiven, he⟩ := map_eq_ok.mp hparse
    simp only [generateOf, Command.generate.injEq] at he
    exact ⟨rest, given, hgiven, he.2.2.1.symm⟩
  · obtain ⟨given, -, he⟩ := map_eq_ok.mp hparse
    cases he
  · obtain ⟨given, -, he⟩ := bind_eq_ok.mp hparse
    unfold validateOf at he
    split at he <;> cases he
  · cases hparse
  · split at hparse <;> cases hparse
  · cases hparse

/-- A configuration that a generation is given has a path. -/
theorem config_ne_empty {args : List String} {input : String} {dryRun : Bool}
    {config filter : Option String} {overrides : Overrides}
    (h : command? args = some (.generate input dryRun config filter overrides)) :
    ∀ path ∈ config, path ≠ "" := by
  obtain ⟨rest, given, hgiven, rfl⟩ := generate_given h
  have hspecs : ∀ spec ∈ generateOptions, spec.name = "config" →
      spec.isPath = true ∧ spec.takesValue = true := by decide
  have hempty : Filled "config" [] := fun _ h => absurd h List.not_mem_nil
  exact fun path hpath => (hempty.readOptionsUpTo hspecs hgiven).lookup hpath

/-- A line that begins with the name of the command asks for a generation or for help. -/
theorem command?_generate {rest : List String} {c : Command}
    (h : command? ("generate" :: rest) = some c) :
    c = .help ∨ ∃ given, readOptions generateOptions rest = .ok given ∧ c = generateOf given := by
  have hparse : parse ("generate" :: rest) = generateOf <$> readOptions generateOptions rest := rfl
  rw [command?, hparse] at h
  cases hread : readOptions generateOptions rest with
  | ok given =>
    rw [hread] at h
    exact .inr ⟨given, rfl, (Option.some.inj h).symm⟩
  | error stop =>
    rw [hread] at h
    cases stop with
    | usage => cases h
    | help => exact .inl (Option.some.inj h).symm

/-- A flag that stands on a line is given, as no option takes it for its value. -/
theorem flag_of_readOptionsUpTo {bound : Nat} {args : List String}
    (h : readOptionsUpTo specs bound args given = .ok given')
    (hm : flag given "dry-run" = true ∨ "--dry-run" ∈ args) : flag given' "dry-run" = true := by
  have hflag (front back : Given) :
      flag (front ++ back) "dry-run" = (flag front "dry-run" || flag back "dry-run") := by
    rw [flag, flag, flag, List.lookup_append]
    cases front.lookup "dry-run" <;> rfl
  induction bound generalizing args given with
  | zero =>
    cases args with
    | nil => exact Except.ok.inj h ▸ hm.resolve_right List.not_mem_nil
    | cons arg rest => cases h
  | succ bound ih =>
    cases args with
    | nil => exact Except.ok.inj h ▸ hm.resolve_right List.not_mem_nil
    | cons arg rest =>
      rcases readOptionsUpTo_cons h with
        ⟨spec, -, _, next, rest', hname, hfirst, hrest⟩ | ⟨rfl, rfl, hrest⟩
      · obtain ⟨value, -, rfl, hleft⟩ := giveNext_eq_ok hfirst
        refine ih hrest ?_
        rw [hflag]
        rcases hm with hgiven | hmem
        · exact .inl (by rw [hgiven, Bool.true_or])
        · rcases List.mem_cons.mp hmem with rfl | hmem
          · -- the argument is the flag, which the step gives
            have hspec := hname "dry-run" none rfl
            exact .inl (by rw [hspec]; simp [flag])
          · rcases hleft with rfl | ⟨v, hvalue, rfl⟩
            · exact .inr hmem
            · -- the step takes a value, and the flag is none as it begins with a dash
              refine .inr ((List.mem_cons.mp hmem).resolve_left ?_)
              rintro rfl
              exact absurd hvalue (by decide +kernel)
      · exact ih hrest (.inl (hm.resolve_right (by decide)))

/-- A long option with its value. -/
def optionText (name value : String) : String := "--" ++ name ++ "=" ++ value

theorem ofString_optionText {name : String} (hne : name ≠ "") (hn : '=' ∉ name.toList)
    (value : String) : Argument.ofString (optionText name value) = .long name (some value) := by
  have hchars : name.toList ≠ [] := mt String.toList_eq_nil_iff.mp hne
  obtain ⟨c, cs, hname⟩ := List.exists_cons_of_ne_nil hchars
  have htext : (optionText name value).toList =
      '-' :: '-' :: c :: (cs ++ '=' :: value.toList) := by
    simp [optionText, hname]
  have hcut : c :: (cs ++ '=' :: value.toList) = name.toList ++ '=' :: value.toList := by
    rw [hname, List.cons_append]
  have htest : ∀ d ∈ name.toList, (d != '=') = true := by
    intro d hd
    rw [bne_iff_ne]
    rintro rfl
    exact hn hd
  have hstop : Idl.Stops (· != '=') ('=' :: value.toList) := by simp [Idl.Stops]
  have htake : (c :: (cs ++ '=' :: value.toList)).takeWhile (· != '=') = name.toList := by
    rw [hcut, Idl.takeWhile_append_stop htest hstop]
  have hdrop : (c :: (cs ++ '=' :: value.toList)).dropWhile (· != '=') = '=' :: value.toList := by
    rw [hcut, Idl.dropWhile_append_stop htest hstop]
  unfold Argument.ofString
  rw [htext]
  simp only [htake, hdrop, String.ofList_toList]

theorem readOptionsUpTo_optionText {bound : Nat} {rest : List String} {value : String}
    (hne : spec.name ≠ "") (hn : '=' ∉ spec.name.toList)
    (hfind : specs.find? (·.name == spec.name) = some spec) (htakes : spec.takesValue = true)
    (hvalue : value ≠ "") (hfree : given.lookup spec.name = none) :
    readOptionsUpTo specs (bound + 1) (optionText spec.name value :: rest) given =
      readOptionsUpTo specs bound rest (given ++ [(spec.name, value)]) := by
  have hgive : give spec value given = .ok (given ++ [(spec.name, value)]) := by
    rw [give, hfree, if_neg (by simp [hvalue])]
  have hnext : giveNext spec (some value) rest given =
      .ok (given ++ [(spec.name, value)], rest) := by
    unfold giveNext
    simp only [htakes, hgive]
    rfl
  rw [readOptionsUpTo, ofString_optionText hne hn]
  split
  · next h => cases (Argument.long.inj h).2
  · next h => cases h
  · next h =>
    obtain ⟨rfl, rfl⟩ := Argument.long.inj h
    simp only [hfind, hnext]
    rfl
  · next h => cases h
  · next h => cases h

/-- A command line that validates a module against its source. -/
def validateLine (path input : String) (config : Option String) : List String :=
  ["validate", optionText "path" path, optionText "input" input] ++
    config.toList.map (optionText "config")

theorem command?_validateLine {path input : String} {config : Option String} (hp : path ≠ "")
    (hi : input ≠ "") (hc : ∀ p ∈ config, p ≠ "") :
    command? (validateLine path input config) = some (.validate path input config) := by
  -- each option of the command is found under its name and takes the value behind it
  have hread {spec : OptionSpec} {value : String} {bound : Nat} {rest : List String} {given : Given}
      (hspec : spec ∈ validateOptions) (hvalue : value ≠ "")
      (hfree : given.lookup spec.name = none) :
      readOptionsUpTo validateOptions (bound + 1) (optionText spec.name value :: rest) given =
        readOptionsUpTo validateOptions bound rest (given ++ [(spec.name, value)]) := by
    simp only [validateOptions, List.mem_cons, List.not_mem_nil, or_false] at hspec
    rcases hspec with rfl | rfl | rfl <;>
      exact readOptionsUpTo_optionText (by decide) (by decide) rfl rfl hvalue hfree
  have hpath : (⟨"path", some 'p', true, true⟩ : OptionSpec) ∈ validateOptions := by
    simp [validateOptions]
  have hinput : (⟨"input", some 'i', true, true⟩ : OptionSpec) ∈ validateOptions := by
    simp [validateOptions]
  have hconfig : (⟨"config", some 'c', true, true⟩ : OptionSpec) ∈ validateOptions := by
    simp [validateOptions]
  have hgiven : readOptions validateOptions (validateLine path input config).tail =
      .ok ([("path", path), ("input", input)] ++ config.toList.map ("config", ·)) := by
    cases config with
    | none => exact (hread hpath hp rfl).trans ((hread hinput hi rfl).trans rfl)
    | some p =>
      exact (hread hpath hp rfl).trans ((hread hinput hi rfl).trans
        ((hread hconfig (hc p rfl) rfl).trans rfl))
  have hcommand :
      validateOf ([("path", path), ("input", input)] ++ config.toList.map ("config", ·)) =
        .ok (.validate path input config) := by cases config <;> rfl
  have hparse : parse (validateLine path input config) = .ok (.validate path input config) :=
    bind_eq_ok.mpr ⟨_, hgiven, hcommand⟩
  rw [command?, hparse]

end SchemaGen.Cli
