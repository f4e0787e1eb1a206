import SchemaGen.Json.Parser
import SchemaGen.Json.Printer
import SchemaGen.Proofs.Idl.Lexeme
import SchemaGen.Proofs.Numeric.Numeral

namespace SchemaGen.Json

open Numeric

/-- A character that a number may go on with. -/
def isNumberChar (c : Char) : Bool := isDigit c || c == '.' || c == 'e' || c == 'E'

/-- The text goes on with nothing that belongs to a number. -/
def EndsNumber (cs : List Char) : Prop := Idl.Stops isNumberChar cs

theorem endsNumber_nil : EndsNumber [] := by simp [EndsNumber, Idl.Stops]

variable {rest : List Char}

theorem EndsNumber.digit (h : EndsNumber rest) : Idl.Stops isDigit rest := by
  intro c hc
  have hn := h c hc
  simp only [isNumberChar, Bool.or_eq_false_iff] at hn
  exact hn.1.1.1

theorem stops_point (cs : List Char) : Idl.Stops isDigit ('.' :: cs) := by simp [Idl.Stops, isDigit]

theorem stops_mark (cs : List Char) : Idl.Stops isDigit ('e' :: cs) := by simp [Idl.Stops, isDigit]

theorem digits?_append {ds : List Char} (h : IsDigits ds) (hr : Idl.Stops isDigit rest) :
    digits? (ds ++ rest) = some (ds, rest) := by
  unfold digits?
  rw [Idl.takeWhile_append_stop h.2 hr, Idl.dropWhile_append_stop h.2 hr]
  split
  · exact absurd rfl h.1
  · rfl

theorem fraction?_of_ne (h : ∀ cs, rest ≠ '.' :: cs) : fraction? rest = some (none, rest) := by
  unfold fraction?
  split
  · next cs => exact absurd rfl (h cs)
  · rfl

theorem exponent?_of_ne (h : ∀ cs, rest ≠ 'e' :: cs) (hu : ∀ cs, rest ≠ 'E' :: cs) :
    exponent? rest = some (none, rest) := by
  unfold exponent?
  split
  · next cs => exact absurd rfl (h cs)
  · next cs => exact absurd rfl (hu cs)
  · rfl

theorem EndsNumber.exponent (h : EndsNumber rest) : exponent? rest = some (none, rest) := by
  apply exponent?_of_ne
  all_goals
    rintro cs rfl
    have hc := h _ rfl
    simp [isNumberChar] at hc

/-- The parts of an exponent do not depend on what follows it. -/
theorem exponent?_append {cs : List Char} (h : IsExponent cs) :
    ∃ e, ∀ ⦃rest⦄, EndsNumber rest → exponent? (cs ++ rest) = some (e, rest) := by
  cases h with
  | absent => exact ⟨none, fun _ hr => hr.exponent⟩
  | @present s ds hs h =>
    refine ⟨some (s == '-', ds), fun rest hr => ?_⟩
    have hd := digits?_append h hr.digit
    rcases hs with rfl | rfl <;> simp [exponent?, takeSign, hd]

theorem exponent_stops {cs : List Char} (h : IsExponent cs) (hr : EndsNumber rest) :
    Idl.Stops isDigit (cs ++ rest) ∧ ∀ ds, cs ++ rest ≠ '.' :: ds := by
  cases h with
  | absent =>
    refine ⟨hr.digit, ?_⟩
    rintro ds he
    rw [List.nil_append] at he
    have hc := hr '.' (by rw [he]; rfl)
    simp [isNumberChar] at hc
  | present hs h => exact ⟨stops_mark _, by simp⟩

/-- The parts of a fraction and an exponent do not depend on what follows them. -/
theorem fraction?_append {cs es : List Char} (h : IsFraction cs) (he : IsExponent es) :
    ∃ f, ∀ ⦃rest⦄, EndsNumber rest →
      fraction? (cs ++ (es ++ rest)) = some (f, es ++ rest) ∧
        Idl.Stops isDigit (cs ++ (es ++ rest)) := by
  cases h with
  | absent =>
    exact ⟨none, fun rest hr =>
      ⟨fraction?_of_ne (exponent_stops he hr).2, (exponent_stops he hr).1⟩⟩
  | @present ds h =>
    refine ⟨some ds, fun rest hr => ⟨?_, stops_point _⟩⟩
    have hd := digits?_append h (exponent_stops he hr).1
    simp [fraction?, hd]

/-- The text of a number, with a minus if it is negative. -/
def signed (negative : Bool) (cs : List Char) : List Char := if negative then '-' :: cs else cs

/-- After its sign a number is read part by part. -/
theorem number?_signed (negative : Bool) {c : Char} {cs whole r₁ r₂ r₃ : List Char}
    {f : Option (List Char)} {e : Option (Bool × List Char)} (h : isDigit c = true)
    (hw : digits? (c :: cs) = some (whole, r₁)) (hz : whole.head? = some '0' → whole = ['0'])
    (hf : fraction? r₁ = some (f, r₂)) (he : exponent? r₂ = some (e, r₃)) :
    number? (signed negative (c :: cs)) = some (⟨negative, whole, f, e⟩, r₃) := by
  have hlength : whole.head? = some '0' → whole.length = 1 := by
    intro hhead
    rw [hz hhead]
    rfl
  cases negative with
  | true => simpa [number?, signed, hw, hf, he] using hlength
  | false =>
    have hne : c ≠ '-' := by
      rintro rfl
      simp [isDigit] at h
    simpa [number?, signed, hne, hw, hf, he] using hlength

theorem number?_numeral (negative : Bool) {cs : List Char} (h : IsNumeral cs) :
    ∃ n : NumberText, ∀ ⦃rest⦄, EndsNumber rest →
      number? (signed negative cs ++ rest) = some (n, rest) := by
  cases h with
  | @mk whole fraction exponent hw hf he =>
    obtain ⟨f, hf⟩ := fraction?_append hf he
    obtain ⟨e, he⟩ := exponent?_append he
    refine ⟨⟨negative, whole, f, e⟩, fun rest hr => ?_⟩
    obtain ⟨hfr, hstops⟩ := hf hr
    have hd := digits?_append hw.1 hstops
    obtain ⟨c, ds, rfl, hc⟩ := hw.front
    have happ : signed negative (c :: ds ++ (fraction ++ exponent)) ++ rest =
        signed negative (c :: (ds ++ (fraction ++ (exponent ++ rest)))) := by
      cases negative <;> simp [signed]
    rw [happ]
    exact number?_signed negative hc hd hw.2 hfr (he hr)

theorem isNumeral_magnitudeText (m : Nat) : IsNumeral (magnitudeText m) := by
  have hzero : IsDigits ['0'] := ⟨by simp, by simp [isDigit]⟩
  unfold magnitudeText
  split
  · have hn := IsNumeral.mk (isWhole_decimalDigits 0) (.present hzero) .absent
    rwa [List.append_nil] at hn
  · next hm =>
    have hd := shortest_digits .even hm
    dsimp only
    split
    · split
      · next he =>
        have hn := IsNumeral.mk (Decimal.isWhole_positional hd he) (.present hzero) .absent
        rwa [List.append_nil] at hn
      · exact Decimal.isNumeral_positional hd
    · exact Decimal.isNumeral_exponential hd

theorem numberText_finite (negative : Bool) (m : Fin finiteCount) :
    (numberText (.finite negative m)).toList = signed negative (magnitudeText m) := by
  simp [numberText, signed]

/-- The value of a text that is read as a number. -/
def readNumber (text : List Char) : Json :=
  match number? text with
  | some (n, _) => ofNumber n
  | none => .null

theorem signed_front (negative : Bool) {cs : List Char} (h : IsNumeral cs) :
    ∃ c ds, signed negative cs = c :: ds ∧ (isDigit c = true ∨ c = '-') := by
  obtain ⟨c, ds, rfl, hc⟩ := h.front
  cases negative with
  | true => exact ⟨'-', _, rfl, .inr rfl⟩
  | false => exact ⟨c, _, rfl, .inl hc⟩

/-- What a number starts with opens no other value. -/
theorem valueUpTo_number {c : Char} {cs : List Char} (bound : Nat)
    (h : isDigit c = true ∨ c = '-') :
    valueUpTo (bound + 1) (c :: cs) =
      (number? (c :: cs)).map fun (n, rest) => (ofNumber n, rest) := by
  have hne (x : Char) (hx : isDigit x = false) (hm : x ≠ '-') : c ≠ x := by
    rintro rfl
    rcases h with h | h
    · simp [h] at hx
    · exact hm h
  have hskip : skipBlanks (c :: cs) = c :: cs := by
    simp [skipBlanks, hne ' ', hne '\n', hne '\t', hne '\r', isDigit]
  rw [valueUpTo, hskip]
  split
  all_goals first
    | rfl
    | next he => exact absurd (List.cons.inj he).1 (hne _ (by decide) (by decide))

/-- A printed number is read as what its text stands for. -/
theorem valueUpTo_numeral (bound : Nat) (negative : Bool) {cs : List Char} (h : IsNumeral cs)
    (hr : EndsNumber rest) :
    valueUpTo (bound + 1) (signed negative cs ++ rest) =
      some (readNumber (signed negative cs), rest) := by
  obtain ⟨n, hn⟩ := number?_numeral negative h
  have hself := hn (endsNumber_nil)
  rw [List.append_nil] at hself
  have hread : readNumber (signed negative cs) = ofNumber n := by rw [readNumber, hself]
  obtain ⟨c, ds, hcs, hc⟩ := signed_front negative h
  have hnumber := hn hr
  rw [hcs, List.cons_append] at hnumber
  rw [hread, hcs, List.cons_append, valueUpTo_number bound hc, hnumber]
  rfl

end SchemaGen.Json
