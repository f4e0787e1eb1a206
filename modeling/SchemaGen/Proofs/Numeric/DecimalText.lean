import SchemaGen.Proofs.Idl.Lexeme
import SchemaGen.Proofs.Numeric.Numeral

namespace SchemaGen.Numeric

open Idl (Stops takeWhile_append_stop dropWhile_append_stop stops_dropWhile mem_takeWhile)

/-- A sign, or none. -/
inductive IsSign : List Char → Bool → Prop where
  | absent : IsSign [] false
  | plus : IsSign ['+'] false
  | minus : IsSign ['-'] true

/-- An exponent and its value; no text is the exponent zero. -/
inductive ExponentText : List Char → Int → Prop where
  | absent : ExponentText [] 0
  | present {mark : Char} {sign ds : List Char} {negative : Bool} (hm : mark = 'e' ∨ mark = 'E')
      (hs : IsSign sign negative) (hd : IsDigits ds) :
      ExponentText (mark :: (sign ++ ds))
        (if negative then -(ofDigits 10 ds : Int) else ofDigits 10 ds)

/-- Digits, digits with a point, or a point with digits, and the decimal that they stand for. -/
inductive DecimalText : List Char → Decimal → Prop where
  | whole {ws es : List Char} {e : Int} (hw : IsDigits ws) (he : ExponentText es e) :
      DecimalText (ws ++ es) ⟨ofDigits 10 ws, e⟩
  | pointed {ws fs es : List Char} {e : Int} (hw : IsDigits ws)
      (hf : ∀ c ∈ fs, isDigit c = true) (he : ExponentText es e) :
      DecimalText (ws ++ '.' :: (fs ++ es)) ⟨ofDigits 10 (ws ++ fs), e - fs.length⟩
  | fraction {fs es : List Char} {e : Int} (hf : IsDigits fs) (he : ExponentText es e) :
      DecimalText ('.' :: (fs ++ es)) ⟨ofDigits 10 fs, e - fs.length⟩

theorem takeSign_eq {sign cs : List Char} {negative : Bool} (hs : IsSign sign negative)
    (hcs : ∀ c ∈ cs.head?, c ≠ '+' ∧ c ≠ '-') : takeSign (sign ++ cs) = (negative, cs) := by
  cases hs with
  | plus => rfl
  | minus => rfl
  | absent =>
    rw [List.nil_append]
    unfold takeSign
    split
    · exact absurd rfl (hcs '-' rfl).2
    · exact absurd rfl (hcs '+' rfl).1
    · rfl

theorem exists_sign (cs : List Char) :
    ∃ sign, IsSign sign (takeSign cs).1 ∧ cs = sign ++ (takeSign cs).2 := by
  unfold takeSign
  split
  · exact ⟨['-'], .minus, rfl⟩
  · exact ⟨['+'], .plus, rfl⟩
  · exact ⟨[], .absent, rfl⟩

theorem ne_sign_of_isDigit {c : Char} (h : isDigit c = true) : c ≠ '+' ∧ c ≠ '-' := by
  constructor
  · rintro rfl
    simp [isDigit] at h
  · rintro rfl
    simp [isDigit] at h

theorem readExponent_cons (c : Char) (cs : List Char) :
    readExponent (c :: cs) =
      if (c == 'e' || c == 'E') && !(takeSign cs).2.isEmpty && (takeSign cs).2.all isDigit then
        some (if (takeSign cs).1 then -(ofDigits 10 (takeSign cs).2 : Int)
          else ofDigits 10 (takeSign cs).2)
      else none := rfl

theorem readExponent_eq_some_iff {cs : List Char} {e : Int} :
    readExponent cs = some e ↔ ExponentText cs e := by
  constructor
  · intro h
    cases cs with
    | nil =>
      cases h
      exact .absent
    | cons mark cs =>
      obtain ⟨sign, hs, hcs⟩ := exists_sign cs
      rw [readExponent_cons] at h
      split at h
      · next htest =>
        simp only [Bool.and_eq_true, Bool.or_eq_true, beq_iff_eq, Bool.not_eq_true',
          List.isEmpty_eq_false_iff, List.all_eq_true] at htest
        obtain rfl := Option.some.inj h
        generalize takeSign cs = signed at *
        rw [hcs]
        exact .present htest.1.1 hs ⟨htest.1.2, htest.2⟩
      · cases h
  · intro h
    cases h with
    | absent => rfl
    | @present mark sign ds negative hm hs hd =>
      have hhead : ∀ c ∈ ds.head?, c ≠ '+' ∧ c ≠ '-' :=
        fun c hc => ne_sign_of_isDigit (hd.2 c (List.mem_of_mem_head? hc))
      rw [readExponent_cons, takeSign_eq hs hhead, if_pos]
      simpa [hd.1, hm] using hd.2

theorem ExponentText.stops {cs : List Char} {e : Int} (h : ExponentText cs e) :
    Stops isDigit cs ∧ ∀ rest, cs ≠ '.' :: rest := by
  cases h with
  | absent => exact ⟨by simp [Stops], by simp⟩
  | present hm hs hd =>
    rcases hm with rfl | rfl <;> exact ⟨by simp [Stops, isDigit], by simp⟩

section Decimal

variable {ws fs rest : List Char} (hw : ∀ c ∈ ws, isDigit c = true) (hr : Stops isDigit rest)
include hw hr

theorem readDecimal_of_no_point (hp : ∀ cs, rest ≠ '.' :: cs) :
    readDecimal (ws ++ rest) =
      if ws.isEmpty then none else (readExponent rest).map (⟨ofDigits 10 ws, ·⟩) := by
  unfold readDecimal
  rw [takeWhile_append_stop hw hr, dropWhile_append_stop hw hr]
  cases rest with
  | nil => simp
  | cons c cs =>
    have hc : c ≠ '.' := by
      rintro rfl
      exact hp cs rfl
    simp

theorem readDecimal_of_point (hf : ∀ c ∈ fs, isDigit c = true) :
    readDecimal (ws ++ '.' :: (fs ++ rest)) =
      if ws.isEmpty && fs.isEmpty then none
      else (readExponent rest).map (⟨ofDigits 10 (ws ++ fs), · - fs.length⟩) := by
  have hpoint : Stops isDigit ('.' :: (fs ++ rest)) := by simp [Stops, isDigit]
  unfold readDecimal
  rw [takeWhile_append_stop hw hpoint, dropWhile_append_stop hw hpoint]
  simp only [takeWhile_append_stop hf hr, dropWhile_append_stop hf hr]

end Decimal

theorem readDecimal_of_text {cs : List Char} {d : Decimal} (h : DecimalText cs d) :
    readDecimal cs = some d := by
  cases h with
  | whole hw he =>
    obtain ⟨hstop, hpoint⟩ := he.stops
    rw [readDecimal_of_no_point hw.2 hstop hpoint, readExponent_eq_some_iff.mpr he]
    simp [hw.1]
  | pointed hw hf he =>
    rw [readDecimal_of_point hw.2 he.stops.1 hf, readExponent_eq_some_iff.mpr he]
    simp [hw.1]
  | @fraction fs es e hf he =>
    have hnone : ∀ c ∈ ([] : List Char), isDigit c = true := by simp
    have h := readDecimal_of_point hnone he.stops.1 hf.2
    rw [List.nil_append, List.nil_append, readExponent_eq_some_iff.mpr he] at h
    rw [h]
    simp [hf.1]

/-- The reader takes a text exactly if it is that of a decimal. -/
theorem readDecimal_eq_some_iff {cs : List Char} {d : Decimal} :
    readDecimal cs = some d ↔ DecimalText cs d := by
  refine ⟨fun h => ?_, readDecimal_of_text⟩
  have hws : ∀ c ∈ cs.takeWhile isDigit, isDigit c = true := fun _ => mem_takeWhile
  have hstop := stops_dropWhile isDigit cs
  rw [← List.takeWhile_append_dropWhile (p := isDigit) (l := cs)] at h ⊢
  generalize cs.takeWhile isDigit = ws at *
  generalize cs.dropWhile isDigit = rest at *
  by_cases hp : ∃ tail, rest = '.' :: tail
  · obtain ⟨tail, rfl⟩ := hp
    have hfs : ∀ c ∈ tail.takeWhile isDigit, isDigit c = true := fun _ => mem_takeWhile
    have hend := stops_dropWhile isDigit tail
    rw [← List.takeWhile_append_dropWhile (p := isDigit) (l := tail)] at h ⊢
    generalize tail.takeWhile isDigit = fs at *
    generalize tail.dropWhile isDigit = es at *
    rw [readDecimal_of_point hws hend hfs] at h
    split at h
    · cases h
    · next hdigits =>
      obtain ⟨e, he, rfl⟩ := Option.map_eq_some_iff.mp h
      rw [readExponent_eq_some_iff] at he
      by_cases hempty : ws = []
      · subst hempty
        exact .fraction ⟨by simpa using hdigits, hfs⟩ he
      · exact .pointed ⟨hempty, hws⟩ hfs he
  · rw [readDecimal_of_no_point hws hstop fun tail ht => hp ⟨tail, ht⟩] at h
    split at h
    · cases h
    · next hdigits =>
      obtain ⟨e, he, rfl⟩ := Option.map_eq_some_iff.mp h
      exact .whole ⟨by simpa using hdigits, hws⟩ (readExponent_eq_some_iff.mp he)

/-- A character that stands in the text of some decimal. -/
def isDecimalChar (c : Char) : Bool :=
  isDigit c || c == '.' || c == 'e' || c == 'E' || c == '+' || c == '-'

theorem isDecimalChar_of_isDigit {c : Char} (h : isDigit c = true) : isDecimalChar c = true := by
  simp [isDecimalChar, h]

theorem IsSign.chars {sign : List Char} {negative : Bool} (hs : IsSign sign negative) :
    ∀ c ∈ sign, isDecimalChar c = true := by
  cases hs <;> simp [isDecimalChar]

theorem ExponentText.chars {cs : List Char} {e : Int} (h : ExponentText cs e) :
    ∀ c ∈ cs, isDecimalChar c = true := by
  cases h with
  | absent => simp
  | present hm hs hd =>
    intro c hc
    rcases List.mem_cons.mp hc with rfl | hc
    · rcases hm with rfl | rfl <;> simp [isDecimalChar]
    rcases List.mem_append.mp hc with hc | hc
    · exact hs.chars c hc
    · exact isDecimalChar_of_isDigit (hd.2 c hc)

theorem DecimalText.chars {cs : List Char} {d : Decimal} (h : DecimalText cs d) :
    ∀ c ∈ cs, isDecimalChar c = true := by
  intro c hc
  cases h with
  | whole hw he =>
    rcases List.mem_append.mp hc with hc | hc
    · exact isDecimalChar_of_isDigit (hw.2 c hc)
    · exact he.chars c hc
  | pointed hw hf he =>
    rcases List.mem_append.mp hc with hc | hc
    · exact isDecimalChar_of_isDigit (hw.2 c hc)
    rcases List.mem_cons.mp hc with rfl | hc
    · simp [isDecimalChar]
    rcases List.mem_append.mp hc with hc | hc
    · exact isDecimalChar_of_isDigit (hf c hc)
    · exact he.chars c hc
  | fraction hf he =>
    rcases List.mem_cons.mp hc with rfl | hc
    · simp [isDecimalChar]
    rcases List.mem_append.mp hc with hc | hc
    · exact isDecimalChar_of_isDigit (hf.2 c hc)
    · exact he.chars c hc

/-- A decimal starts with a digit or a point. -/
theorem DecimalText.head {cs : List Char} {d : Decimal} (h : DecimalText cs d) :
    ∃ c rest, cs = c :: rest ∧ (isDigit c = true ∨ c = '.') := by
  have digits {ds : List Char} (hd : IsDigits ds) (rest : List Char) :
      ∃ c tail, ds ++ rest = c :: tail ∧ (isDigit c = true ∨ c = '.') := by
    match ds, hd with
    | [], hd => exact absurd rfl hd.1
    | c :: ds, hd => exact ⟨c, ds ++ rest, rfl, .inl (hd.2 c (by simp))⟩
  cases h with
  | whole hw he => exact digits hw _
  | pointed hw hf he => exact digits hw _
  | fraction hf he => exact ⟨'.', _, rfl, .inr rfl⟩

end SchemaGen.Numeric
