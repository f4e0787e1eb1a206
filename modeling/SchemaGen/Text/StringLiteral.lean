import SchemaGen.Numeric.Literal

/-!
String literals as a reader of the emitted language takes them. A string is a row of code units,
two for a code point past the first plane. Literals are those of a module, so no escape is octal.
-/

namespace SchemaGen.Text

open Numeric

/-- The code units of a code point. -/
def codeUnits (code : Nat) : List UInt16 :=
  if code < 0x10000 then [.ofNat code]
  else [.ofNat (0xD800 + (code - 0x10000) / 0x400), .ofNat (0xDC00 + (code - 0x10000) % 0x400)]

/-- The string that holds a text. -/
def units (s : String) : List UInt16 := s.toList.flatMap fun c => codeUnits c.toNat

/-- Characters that end a line. The last two may stand in a literal. -/
def lineEnds : List Char := ['\n', '\r', '\u2028', '\u2029']

/-- What a character stands for after a backslash, if it begins no longer escape. -/
def escapedChar : Char → Char
  | 'b' => '\x08'
  | 'f' => '\x0c'
  | 'n' => '\n'
  | 'r' => '\r'
  | 't' => '\t'
  | 'v' => '\x0b'
  | c => c

/-- A code unit by its number. -/
def numberedUnit? (digits rest : List Char) : Option (List UInt16 × List Char) :=
  if digits.all (hasDigit 16) then some ([.ofNat (ofDigits 16 digits)], rest) else none

/-- A code point by its number, up to a closing brace. -/
def numberedPoint? (cs : List Char) : Option (List UInt16 × List Char) :=
  let digits := cs.takeWhile (hasDigit 16)
  match cs.dropWhile (hasDigit 16) with
  | '\x7d' :: rest =>
    let code := ofDigits 16 digits
    if !digits.isEmpty && code ≤ 0x10FFFF then some (codeUnits code, rest) else none
  | _ => none

/-- What an escape stands for, read from after its backslash. The end of a line stands for
nothing. -/
def escapeSequence? : List Char → Option (List UInt16 × List Char)
  | [] => none
  | 'u' :: '\x7b' :: rest => numberedPoint? rest
  | 'u' :: a :: b :: c :: d :: rest => numberedUnit? [a, b, c, d] rest
  | 'x' :: a :: b :: rest => numberedUnit? [a, b] rest
  | '\r' :: '\n' :: rest => some ([], rest)
  | c :: rest =>
    if c = 'u' ∨ c = 'x' then none
    else if c ∈ lineEnds then some ([], rest)
    else if c = '0' ∧ rest.head?.all (!isDigit ·) then some ([0], rest)
    else if isDigit c then none
    else some (codeUnits (escapedChar c).toNat, rest)

theorem rest_numberedUnit? {digits cs rest : List Char} {us : List UInt16}
    (h : numberedUnit? digits cs = some (us, rest)) : cs = rest := by
  unfold numberedUnit? at h
  split at h <;> cases h
  rfl

theorem length_numberedPoint? {cs rest : List Char} {us : List UInt16}
    (h : numberedPoint? cs = some (us, rest)) : rest.length < cs.length := by
  unfold numberedPoint? at h
  have hl := (List.dropWhile_suffix (l := cs) (hasDigit 16)).length_le
  split at h
  · next hd =>
    rw [hd, List.length_cons] at hl
    dsimp only at h
    split at h
    · cases h
      exact hl
    · cases h
  · cases h

theorem length_escapeSequence? {cs rest : List Char} {us : List UInt16}
    (h : escapeSequence? cs = some (us, rest)) : rest.length < cs.length := by
  unfold escapeSequence? at h
  split at h
  · cases h
  · have hl := length_numberedPoint? h
    simp only [List.length_cons]
    omega
  · have hr := rest_numberedUnit? h
    simp only [hr, List.length_cons]
    omega
  · have hr := rest_numberedUnit? h
    simp only [hr, List.length_cons]
    omega
  · cases h
    simp only [List.length_cons]
    omega
  · repeat' split at h
    all_goals cases h
    all_goals exact Nat.lt_succ_self _

/-- The code units up to the mark that closes a literal, and what follows it. -/
def literalRest? (mark : Char) : List Char → Option (List UInt16 × List Char)
  | [] => none
  | c :: rest =>
    if c = mark then some ([], rest)
    else if c = '\\' then
      match _ : escapeSequence? rest with
      | none => none
      | some (us, tail) => (literalRest? mark tail).map fun (vs, after) => (us ++ vs, after)
    else if c = '\n' ∨ c = '\r' then none
    else (literalRest? mark rest).map fun (vs, after) => (codeUnits c.toNat ++ vs, after)
termination_by cs => cs.length
decreasing_by
  · have hl := length_escapeSequence? ‹_›
    simp only [List.length_cons]
    omega
  · simp

/-- The string of the literal that a text begins with, and what follows it. -/
def stringLiteral? : List Char → Option (List UInt16 × List Char)
  | '"' :: rest => literalRest? '"' rest
  | '\'' :: rest => literalRest? '\'' rest
  | _ => none

end SchemaGen.Text
