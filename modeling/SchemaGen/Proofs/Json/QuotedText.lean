import SchemaGen.Json.Parser
import SchemaGen.Json.Printer

namespace SchemaGen.Json

open Numeric

/-- A control character that has no letter is written with its number. -/
def isNumbered (c : Char) : Bool :=
  c.toNat < 32 && !([8, 9, 10, 12, 13].contains c.toNat)

/-- What the reader finds for a character. -/
def pieceOf (c : Char) : Piece := if isNumbered c then .unit c.toNat else .char c

theorem hexDigit_value {n : Nat} (h : n < 16) :
    isHexDigit (hexDigit n) = true ∧ digitValue (hexDigit n) = n := by
  have hall : ∀ m : Fin 16,
      isHexDigit (hexDigit m.val) = true ∧ digitValue (hexDigit m.val) = m.val := by decide
  exact hall ⟨n, h⟩

theorem pieces_plain {c : Char} (hq : c ≠ '"') (hs : c ≠ '\\') (hn : ¬ c.toNat < 32)
    (cs : List Char) :
    pieces (c :: cs) = (pieces cs).map fun (ps, tail) => (.char c :: ps, tail) := by
  rw [pieces]
  · simp [hn, hs]
  · exact hq
  · intro a b d e rest h
    exact absurd h hs
  · intro e rest h
    exact absurd h hs

theorem pieces_numbered {n : Nat} (h : n < 32) (cs : List Char) :
    pieces ('\\' :: 'u' :: '0' :: '0' :: hexDigit (n / 16) :: hexDigit (n % 16) :: cs) =
      (pieces cs).map fun (ps, tail) => (.unit n :: ps, tail) := by
  obtain ⟨hh, vh⟩ := hexDigit_value (show n / 16 < 16 by omega)
  obtain ⟨hl, vl⟩ := hexDigit_value (show n % 16 < 16 by omega)
  have hzero : isHexDigit '0' = true := by decide
  have vzero : digitValue '0' = 0 := by decide
  have hvalue : ofDigits 16 ['0', '0', hexDigit (n / 16), hexDigit (n % 16)] = n := by
    simp only [ofDigits, List.foldl_cons, List.foldl_nil, vzero, vh, vl]
    omega
  have hall : ['0', '0', hexDigit (n / 16), hexDigit (n % 16)].all isHexDigit = true := by
    simp only [List.all_cons, List.all_nil, hzero, hh, hl, Bool.and_true]
  rw [pieces, if_pos hall, hvalue]

/-- A character that is written with a letter. -/
theorem pieces_letter {c e : Char} {n : Nat} (hn : c.toNat = n)
    (he : escaped? e = some (Char.ofNat n)) (hu : e ≠ 'u') (hp : isNumbered c = false)
    (cs : List Char) :
    pieces ('\\' :: e :: cs) = (pieces cs).map fun (ps, tail) => (pieceOf c :: ps, tail) := by
  have hc : Char.ofNat n = c := by rw [← hn, Char.ofNat_toNat]
  rw [pieces]
  · rw [he, hc, pieceOf, hp]
    cases pieces cs <;> rfl
  · intro a b d f rest h
    exact absurd h hu

theorem pieces_escapeChar (c : Char) (cs : List Char) :
    pieces (escapeChar c ++ cs) =
      (pieces cs).map fun (ps, tail) => (pieceOf c :: ps, tail) := by
  unfold escapeChar
  split
  · next h =>
    subst h
    exact pieces_letter rfl rfl (by decide) rfl cs
  split
  · next h =>
    subst h
    exact pieces_letter rfl rfl (by decide) rfl cs
  split
  · next h => exact pieces_letter h rfl (by decide) (by simp [isNumbered, h]) cs
  split
  · next h => exact pieces_letter h rfl (by decide) (by simp [isNumbered, h]) cs
  split
  · next h => exact pieces_letter h rfl (by decide) (by simp [isNumbered, h]) cs
  split
  · next h => exact pieces_letter h rfl (by decide) (by simp [isNumbered, h]) cs
  split
  · next h => exact pieces_letter h rfl (by decide) (by simp [isNumbered, h]) cs
  split
  · next h8 h9 h10 h12 h13 h =>
    have hn : isNumbered c = true := by simp [isNumbered, *]
    rw [pieceOf, hn]
    exact pieces_numbered h cs
  · next hq hs _ _ _ _ _ h =>
    have hn : isNumbered c = false := by simp [isNumbered, h]
    rw [pieceOf, hn]
    exact pieces_plain hq hs h cs

theorem pieces_escaped (cs rest : List Char) :
    pieces (cs.flatMap escapeChar ++ '"' :: rest) = some (cs.map pieceOf, rest) := by
  induction cs with
  | nil => rfl
  | cons c cs ih =>
    rw [List.flatMap_cons, List.append_assoc, pieces_escapeChar, ih]
    rfl

theorem combine?_unit {n : Nat} (h : n < 32) (ps : List Piece) :
    combine? (.unit n :: ps) = (Char.ofNat n :: ·) <$> combine? ps := by
  have hhigh : isHighSurrogate n = false := by simp [isHighSurrogate]; omega
  have hlow : isLowSurrogate n = false := by simp [isLowSurrogate]; omega
  match ps with
  | [] | .char _ :: _ | .unit _ :: _ => simp [combine?, hhigh, hlow]

theorem combine?_pieceOf (cs : List Char) : combine? (cs.map pieceOf) = some cs := by
  induction cs with
  | nil => rfl
  | cons c cs ih =>
    rw [List.map_cons, pieceOf]
    split
    · next h =>
      have hlt : c.toNat < 32 := by simp [isNumbered] at h; exact h.1
      rw [combine?_unit hlt, ih, Char.ofNat_toNat]
      rfl
    · rw [combine?, ih]
      rfl

/-- Text between quotes is read back, up to its closing quote. -/
theorem quoted?_escaped (s : String) (rest : List Char) :
    quoted? (s.toList.flatMap escapeChar ++ '"' :: rest) = some (some s, rest) := by
  simp only [quoted?, pieces_escaped, Option.map_some, combine?_pieceOf, String.ofList_toList]

theorem quote_toList (s : String) :
    (quote s).toList = '"' :: (s.toList.flatMap escapeChar ++ ['"']) := by
  simp [quote]

end SchemaGen.Json
