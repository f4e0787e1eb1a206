import SchemaGen.Text.Blank
import SchemaGen.Text.Split

namespace SchemaGen.Files

/-- A part of an ignore pattern, which matches bytes. A byte or a run stays within one component. -/
inductive IgnoreToken where
  | literal (bytes : List UInt8)
  | anyByte
  | anyRun
  | leadingComponents
  | innerComponents
  | trailingComponents
  | within (negated : Bool) (ranges : List (UInt8 × UInt8))
  | oneOf (branches : List (List IgnoreToken))
  deriving Inhabited

/-- A line of an ignore file. -/
structure IgnoreRule where
  tokens : List IgnoreToken
  includes : Bool
  directoriesOnly : Bool

inductive Verdict where
  | ignored
  | included
  deriving DecidableEq, Repr

namespace Ignore

/-- `/` -/
def slash : UInt8 := 47

def bytesOf (c : Char) : List UInt8 := (String.singleton c).toUTF8.toList

/-- The rests of a text. -/
def rests : List UInt8 → List (List UInt8)
  | [] => [[]]
  | b :: rest => (b :: rest) :: rests rest

/-- The rests within the first component. -/
def componentRests : List UInt8 → List (List UInt8)
  | [] => [[]]
  | b :: rest => (b :: rest) :: if b == slash then [] else componentRests rest

/-- The rests after each separator. -/
def afterSlashes : List UInt8 → List (List UInt8)
  | [] => []
  | b :: rest => if b == slash then rest :: afterSlashes rest else afterSlashes rest

/- What a token, or all of a list, or one branch may leave of a text. -/
mutual

def leaves : IgnoreToken → List UInt8 → List (List UInt8)
  | .literal bytes, bs => (Text.afterFront? bytes bs).toList
  | .anyByte, b :: bs => if b == slash then [] else [bs]
  | .anyByte, [] => []
  | .anyRun, bs => componentRests bs
  | .leadingComponents, bs => bs :: afterSlashes bs
  | .innerComponents, b :: bs => if b == slash then bs :: afterSlashes bs else []
  | .innerComponents, [] => []
  | .trailingComponents, b :: bs => if b == slash then rests bs else []
  | .trailingComponents, [] => []
  | .within negated ranges, b :: bs =>
    if ranges.any (fun r => r.1 ≤ b && b ≤ r.2) != negated then [bs] else []
  | .within _ _, [] => []
  | .oneOf [], bs => [bs]
  | .oneOf branches, bs => leavesOne branches bs

def leavesAll : List IgnoreToken → List (List UInt8) → List (List UInt8)
  | [], texts => texts
  | t :: ts, texts => leavesAll ts (Text.distinctRests (texts.flatMap fun bs => leaves t bs))

def leavesOne : List (List IgnoreToken) → List UInt8 → List (List UInt8)
  | [], _ => []
  | branch :: rest, bs => leavesAll branch [bs] ++ leavesOne rest bs

end

/-- Whether a pattern matches a whole text: its tokens may leave nothing. -/
def matchesAll (tokens : List IgnoreToken) (bytes : List UInt8) : Bool :=
  (leavesAll tokens [bytes]).any List.isEmpty

/-- Reading state: the tokens of the open branches, innermost last, each list newest first; for
each open group the number of branches before it; and whether an open bracket was found that
nothing closes. -/
structure Reading where
  branches : List (List IgnoreToken) := [[]]
  groups : List Nat := []
  literalBrackets : Bool := false

namespace Reading

def push (r : Reading) (t : IgnoreToken) : Reading :=
  match r.branches.getLast? with
  | some branch => { r with branches := r.branches.dropLast ++ [t :: branch] }
  | none => r

def pushChar (r : Reading) (c : Char) : Reading := r.push (.literal (bytesOf c))

/-- Replaces the newest token by what a component wildcard makes of it. -/
def replaceLast (r : Reading) (t : IgnoreToken) : Reading :=
  match r.branches.getLast? with
  | some (.leadingComponents :: _) | some (.trailingComponents :: _) => r
  | some (_ :: branch) => { r with branches := r.branches.dropLast ++ [t :: branch] }
  | _ => r

def atStart (r : Reading) : Bool := (r.branches.getLast?.getD []).isEmpty

/-- Closes a group. Branches that can only be empty do not count. -/
def closeGroup? (r : Reading) : Option Reading :=
  match r.groups with
  | [] => none
  | start :: groups =>
    let isEmptyGroup : IgnoreToken → Bool
      | .oneOf [] => true
      | _ => false
    let branches := (r.branches.drop start).map List.reverse
    let full := branches.filter fun b => !b.all isEmptyGroup
    some ({ r with branches := r.branches.take start, groups := groups }.push (.oneOf full))

end Reading

/-- A range of characters, compared byte by byte: the bytes around the dash make a range and the
others stand for themselves. -/
def byteRanges (low high : Char) : List (UInt8 × UInt8) :=
  if low = high then (bytesOf low).map fun b => (b, b)
  else
    match (bytesOf low).reverse, bytesOf high with
    | l :: before, h :: after =>
      before.map (fun b => (b, b)) ++ [(l, h)] ++ after.map fun b => (b, b)
    | _, _ => []

inductive ClassReading where
  | unclosed
  | invalid
  | closed (ranges : List (Char × Char)) (rest : List Char)

/-- The ranges of a class up to its closing bracket, newest first. A bracket or dash in front
stands for itself, and so does a dash at the end. -/
def readRanges (ranges : List (Char × Char)) (inRange : Bool) : List Char → ClassReading
  | [] => .unclosed
  | c :: rest =>
    match ranges, inRange with
    | [], _ => readRanges [(c, c)] false rest
    | (low, _) :: others, true =>
      if c = ']' then .closed (('-', '-') :: ranges) rest
      else if c < low then .invalid
      else readRanges ((low, c) :: others) false rest
    | ranges, false =>
      if c = ']' then .closed ranges rest
      else if c = '-' then readRanges ranges true rest
      else readRanges ((c, c) :: ranges) false rest

/-- What a component wildcard is after its two stars. -/
def readStars (r : Reading) (before : Option Char) (rest : List Char) : Reading × List Char :=
  let plain := (r.push .anyRun).push .anyRun
  let nested := 2 ≤ r.branches.length
  if r.atStart then
    match rest with
    | [] => (r.push .leadingComponents, [])
    | '/' :: after => (r.push .leadingComponents, after)
    | _ => (plain, rest)
  else if before ≠ some '/' && !(nested && (before = some ',' || before = some '\x7b')) then
    (plain, rest)
  else
    match rest with
    | [] => (r.replaceLast .trailingComponents, [])
    | '/' :: after => (r.replaceLast .innerComponents, after)
    | c :: _ =>
      if nested && (c = ',' || c = '\x7d') then (r.replaceLast .trailingComponents, rest)
      else (plain, rest)

/-- Reads a pattern; the bound is the length of the rest. -/
def parseUpTo : Nat → Reading → Option Char → List Char → Option Reading
  | 0, r, _, _ => some r
  | bound + 1, r, before, cs =>
    match cs with
    | [] => some r
    | '?' :: rest => parseUpTo bound (r.push .anyByte) (some '?') rest
    | '*' :: '*' :: rest =>
      let (r, after) := readStars r before rest
      parseUpTo bound r (some (if after.length < rest.length then '/' else '*')) after
    | '*' :: rest => parseUpTo bound (r.push .anyRun) (some '*') rest
    | '[' :: rest =>
      let (negated, body) := match rest with
        | '!' :: body | '^' :: body => (true, body)
        | body => (false, body)
      if r.literalBrackets then parseUpTo bound (r.pushChar '[') (some '[') rest
      else match readRanges [] false body with
        | .unclosed =>
          parseUpTo bound ({ r with literalBrackets := true }.pushChar '[') (some '[') rest
        | .invalid => none
        | .closed ranges after =>
          parseUpTo bound (r.push (.within negated (ranges.flatMap fun x => byteRanges x.1 x.2)))
            (some ']') after
    | '\x7b' :: rest =>
      parseUpTo bound
        { r with branches := r.branches ++ [[]], groups := r.branches.length :: r.groups }
        (some '\x7b') rest
    | '\x7d' :: rest => do
      let r ← r.closeGroup?
      parseUpTo bound r (some '\x7d') rest
    | ',' :: rest =>
      if r.groups.isEmpty then parseUpTo bound (r.pushChar ',') (some ',') rest
      else parseUpTo bound { r with branches := r.branches ++ [[]] } (some ',') rest
    | '\\' :: c :: rest => parseUpTo bound (r.pushChar c) (some c) rest
    | ['\\'] => none
    | c :: rest => parseUpTo bound (r.pushChar c) (some c) rest

/-- The tokens of a pattern. A pattern that takes whole components only takes everything. -/
def parsePattern? (pattern : List Char) : Option (List IgnoreToken) := do
  let r ← parseUpTo (pattern.length + 1) {} none pattern
  match r.branches, r.groups with
  | [[.leadingComponents]], [] => some [.leadingComponents, .anyRun]
  | [tokens], [] => some tokens.reverse
  | _, _ => none

/-- A text without the blanks at its end, unless the last is an escaped space. -/
def trimLine (cs : List Char) : List Char :=
  if ['\\', ' '].isSuffixOf cs then cs else (cs.reverse.dropWhile Text.isBlank).reverse

/-- A pattern whose last character is a slash, without it. -/
def cutSlash (cs : List Char) : Bool × List Char :=
  match cs.reverse with
  | '/' :: '\\' :: rest | '/' :: rest => (true, rest.reverse)
  | _ => (false, cs)

/-- A pattern without a slash inside matches at any depth, and one that ends in a component
wildcard matches only what is below. -/
def completePattern (anchored : Bool) (cs : List Char) : List Char :=
  let named := "**/".toList.isPrefixOf cs || cs == "**".toList
  let cs := if !anchored && !cs.contains '/' && !named then "**/".toList ++ cs else cs
  if "/**".toList.isSuffixOf cs then cs ++ "/*".toList else cs

/-- The rule of a line, if it has one. -/
def parseLine? (line : List Char) : Option IgnoreRule :=
  if line.head? == some '#' then none
  else
    let line := trimLine line
    let (includes, anchored, body) := match line with
      | '\\' :: '!' :: rest => (false, false, '!' :: rest)
      | '\\' :: '#' :: rest => (false, false, '#' :: rest)
      | '!' :: '/' :: rest => (true, true, rest)
      | '!' :: rest => (true, false, rest)
      | '/' :: rest => (false, true, rest)
      | rest => (false, false, rest)
    let (directoriesOnly, body) := cutSlash body
    if line.isEmpty then none
    else (parsePattern? (completePattern anchored body)).map fun tokens =>
      ⟨tokens, includes, directoriesOnly⟩

/-- The rules of the lines of a file; byte order marks in front of the first do not count. -/
def parse : List String → List IgnoreRule
  | [] => []
  | first :: rest =>
    (first.toList.dropWhile (· == '\ufeff') :: rest.map String.toList).filterMap parseLine?

/-- What a file of rules says of a path below its directory. -/
def verdict? (rules : List IgnoreRule) (path : String) (directory : Bool) : Option Verdict :=
  (rules.reverse.find? fun rule =>
    (!rule.directoriesOnly || directory) &&
      matchesAll rule.tokens path.toUTF8.toList).map fun rule =>
    if rule.includes then .included else .ignored

end Ignore
end SchemaGen.Files
