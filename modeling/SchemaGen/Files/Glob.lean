import SchemaGen.Text.Split

namespace SchemaGen.Files

/-- A character or a range in a class. -/
inductive ClassItem where
  | single (c : Char)
  | range (low high : Char)
  deriving DecidableEq, Repr

def ClassItem.contains (c : Char) : ClassItem → Bool
  | single d => c == d
  | range low high => low ≤ c && c ≤ high

/-- A part of a pattern. A run goes across separators, and components are whole ones, any number of
them. -/
inductive GlobToken where
  | char (c : Char)
  | anyChar
  | anyRun
  | anyComponents
  | within (items : List ClassItem)
  | except (items : List ClassItem)
  deriving DecidableEq, Repr

/-- What is wrong with a pattern, at a position counted in characters. -/
structure GlobError where
  position : Nat
  reason : String
  deriving DecidableEq, Repr

def GlobError.message (e : GlobError) : String :=
  "Pattern syntax error near position " ++ toString e.position ++ ": " ++ e.reason

namespace Glob

def wildcards : String := "wildcards are either regular `*` or recursive `**`"

def component : String := "recursive wildcards must form a single path component"

def invalidRange : String := "invalid range pattern"

/-- The items of a class; a dash between two characters makes a range. -/
def classItems : List Char → List ClassItem
  | low :: '-' :: high :: rest => .range low high :: classItems rest
  | c :: rest => .single c :: classItems rest
  | [] => []

/-- The contents of a class and the rest, split at the first closing bracket after the first
character. -/
def splitClass? : List Char → Option (List Char × List Char)
  | [] => none
  | first :: rest =>
    match rest.dropWhile (· != ']') with
    | [] => none
    | _ :: after => some (first :: rest.takeWhile (· != ']'), after)

/-- A class after its opening bracket, and the rest. -/
def readClass? : List Char → Option (GlobToken × List Char)
  | '!' :: rest => (splitClass? rest).map fun (cs, after) => (.except (classItems cs), after)
  | rest => (splitClass? rest).map fun (cs, after) => (.within (classItems cs), after)

/-- Two stars and what may follow them: a separator, which they take, or the end. -/
def readComponents (position : Nat) (before : Option Char) (rest : List Char) :
    Except GlobError (List Char) :=
  if before.any (· != '/') then .error ⟨position - 1, component⟩
  else match rest with
    | '/' :: rest => .ok rest
    | [] => .ok []
    | _ => .error ⟨position + 2, component⟩

/-- Reads a pattern from a position, with the character before it. The bound is the length of the
rest. -/
def parseUpTo : Nat → Nat → Option Char → List Char → Except GlobError (List GlobToken)
  | 0, _, _, _ => .ok []
  | bound + 1, position, before, cs =>
    match cs with
    | [] => .ok []
    | '?' :: rest => (.anyChar :: ·) <$> parseUpTo bound (position + 1) (some '?') rest
    | '*' :: '*' :: '*' :: _ => .error ⟨position + 2, wildcards⟩
    | '*' :: '*' :: rest => do
      let after ← readComponents position before rest
      let last := if rest.isEmpty then '*' else '/'
      (.anyComponents :: ·) <$>
        parseUpTo bound (position + 2 + (rest.length - after.length)) (some last) after
    | '*' :: rest => (.anyRun :: ·) <$> parseUpTo bound (position + 1) (some '*') rest
    | '[' :: rest =>
      match readClass? rest with
      | some (token, after) =>
        (token :: ·) <$>
          parseUpTo bound (position + 1 + (rest.length - after.length)) (some ']') after
      | none => .error ⟨position, invalidRange⟩
    | c :: rest => (.char c :: ·) <$> parseUpTo bound (position + 1) (some c) rest

def parse (pattern : String) : Except GlobError (List GlobToken) :=
  parseUpTo (pattern.length + 1) 0 none pattern.toList

/-- The rests of a text after each number of characters. -/
def rests : List Char → List (List Char)
  | [] => [[]]
  | c :: rest => (c :: rest) :: rests rest

/-- The rests that start a component. -/
def componentRests : List Char → List (List Char)
  | [] => [[]]
  | '/' :: rest => rest :: componentRests rest
  | _ :: rest => componentRests rest

/-- What a token may leave of a text. -/
def leaves : GlobToken → List Char → List (List Char)
  | .anyRun, cs => rests cs
  | .anyComponents, cs => cs :: componentRests cs
  | _, [] => []
  | .anyChar, _ :: cs => [cs]
  | .char d, c :: cs => if c == d then [cs] else []
  | .within items, c :: cs => if items.any (·.contains c) then [cs] else []
  | .except items, c :: cs => if items.any (·.contains c) then [] else [cs]

/-- Whether a pattern matches a whole text: its tokens may leave nothing. -/
def accepts (tokens : List GlobToken) (cs : List Char) : Bool :=
  (tokens.foldl (fun texts t => Text.distinctRests (texts.flatMap (leaves t))) [cs]).any
    List.isEmpty

end Glob
end SchemaGen.Files
