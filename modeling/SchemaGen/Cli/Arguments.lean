import SchemaGen.Project.Config
import SchemaGen.Table

namespace SchemaGen.Cli

inductive Command where
  | generate (input : String) (dryRun : Bool) (config filter : Option String)
      (overrides : Overrides)
  | init (output : String) (force : Bool)
  | validate (path input : String) (config : Option String)
  | version
  | help
  deriving DecidableEq, Inhabited

/-- An option by its long name and, if it has one, its letter. -/
structure OptionSpec where
  name : String
  letter : Option Char := none
  takesValue : Bool := true
  /-- A path may not be empty. -/
  isPath : Bool := true

/-- What was given: each option with its value, if it takes one. -/
abbrev Given := List (String × String)

def generateOptions : List OptionSpec :=
  [⟨"input", some 'i', true, true⟩, ⟨"output", some 'o', true, true⟩,
    ⟨"dry-run", none, false, false⟩, ⟨"config", some 'c', true, true⟩,
    ⟨"filter", none, true, false⟩, ⟨"disable-optional-fields", none, false, false⟩,
    ⟨"types", none, false, false⟩]

def initOptions : List OptionSpec :=
  [⟨"output", some 'o', true, true⟩, ⟨"force", none, false, false⟩]

def validateOptions : List OptionSpec :=
  [⟨"path", some 'p', true, true⟩, ⟨"input", some 'i', true, true⟩,
    ⟨"config", some 'c', true, true⟩]

/-- An argument taken apart. -/
inductive Argument where
  | long (name : String) (value : Option String)
  | short (letter : Char) (rest : List Char)
  | positional

/-- A lone dash is no option, and neither are two. -/
def Argument.ofString (s : String) : Argument :=
  match s.toList with
  | '-' :: '-' :: c :: cs =>
    let name := (c :: cs).takeWhile (· != '=')
    match (c :: cs).dropWhile (· != '=') with
    | _ :: value => .long (String.ofList name) (some (String.ofList value))
    | [] => .long (String.ofList name) none
  | ['-', '-'] => .positional
  | '-' :: c :: cs => .short c cs
  | _ => .positional

/-- Whether an argument can be the value of the option before it. -/
def isValue (s : String) : Bool := s == "-" || s.toList.head? != some '-'

/-- Why reading stops. -/
inductive Stop where
  | usage
  | help
  deriving DecidableEq

/-- Adds an option with its value. -/
def give (spec : OptionSpec) (value : String) (given : Given) : Except Stop Given :=
  if (given.lookup spec.name).isSome || (spec.isPath && value.isEmpty) then .error .usage
  else .ok (given ++ [(spec.name, value)])

/-- An option whose value is attached, or the argument after it; the rest is what is left. -/
def giveNext (spec : OptionSpec) (attached : Option String) (rest : List String) (given : Given) :
    Except Stop (Given × List String) :=
  match spec.takesValue, attached, rest with
  | true, some value, rest => (give spec value given).map (·, rest)
  | true, none, value :: rest =>
    if isValue value then (give spec value given).map (·, rest) else .error .usage
  | true, none, [] => .error .usage
  | false, some _, _ => .error .usage
  | false, none, rest => (give { spec with isPath := false } "" given).map (·, rest)

/-- The value attached to a letter, with or without an equals sign. -/
def attachedTo : List Char → Option String
  | [] => none
  | '=' :: value => some (String.ofList value)
  | value => some (String.ofList value)

/-- The options of a command, in any order. The bound is the number of arguments. -/
def readOptionsUpTo (specs : List OptionSpec) : Nat → List String → Given → Except Stop Given
  | _, [], given => .ok given
  | 0, _, _ => .error .usage
  | bound + 1, arg :: rest, given => do
    let (given, rest) ← match Argument.ofString arg with
      | .long "help" none => throw .help
      | .short 'h' _ => throw .help
      | .long name value =>
        match specs.find? (·.name == name) with
        | some spec => giveNext spec value rest given
        | none => throw .usage
      | .short letter attached =>
        match specs.find? (·.letter == some letter) with
        | some spec => giveNext spec (attachedTo attached) rest given
        | none => throw .usage
      | .positional =>
        if arg = "--" && rest.isEmpty then pure (given, []) else throw .usage
    readOptionsUpTo specs bound rest given

def readOptions (specs : List OptionSpec) (args : List String) : Except Stop Given :=
  readOptionsUpTo specs args.length args []

/-- A flag that can only switch on. -/
def flag (given : Given) (name : String) : Bool := (given.lookup name).isSome

def switch (given : Given) (name : String) : Option Bool :=
  if flag given name then some true else none

def generateOf (given : Given) : Command :=
  .generate ((given.lookup "input").getD ".") (flag given "dry-run") (given.lookup "config")
    (given.lookup "filter")
    { dir := given.lookup "output", types := switch given "types",
      disableOptional := switch given "disable-optional-fields" }

def initOf (given : Given) : Command :=
  .init ((given.lookup "output").getD Config.defaultPath) (flag given "force")

def validateOf (given : Given) : Except Stop Command :=
  match given.lookup "path", given.lookup "input" with
  | some path, some input => .ok (.validate path input (given.lookup "config"))
  | _, _ => .error .usage

/-- The command of a command line. -/
def parse (args : List String) : Except Stop Command :=
  match args with
  | "generate" :: rest => generateOf <$> readOptions generateOptions rest
  | "init" :: rest => initOf <$> readOptions initOptions rest
  | "validate" :: rest => do validateOf (← readOptions validateOptions rest)
  | "help" :: _ => .ok .help
  | arg :: _ =>
    match Argument.ofString arg with
    | .long "version" none | .short 'V' _ => .ok .version
    | .long "help" none | .short 'h' _ => .ok .help
    | _ => .error .usage
  | [] => .error .usage

/-- The command of a command line, where asking for help is a command. -/
def command? (args : List String) : Option Command :=
  match parse args with
  | .ok c => some c
  | .error .help => some .help
  | .error .usage => none

end SchemaGen.Cli
