import Mathlib.Data.List.Induction
import Mathlib.Data.Nat.Digits.Defs
import SchemaGen.Proofs.Idl.LexemeMatch
import SchemaGen.Proofs.Numeric.DecimalText
import SchemaGen.Proofs.Peg.Derivation

namespace SchemaGen.Idl

open Numeric Peg

/-- What digits of a radix denote by their places. -/
def placeValue (radix : Nat) (digits : List Char) : Nat :=
  Nat.ofDigits radix (digits.map digitValue).reverse

/-- A sign, or none, as a factor. -/
inductive SignText : List Char → Int → Prop where
  | absent : SignText [] 1
  | plus : SignText ['+'] 1
  | minus : SignText ['-'] (-1)

theorem SignText.signed {s : List Char} {factor : Int} (h : SignText s factor) (m : Nat) :
    (if s = ['-'] then -(m : Int) else m) = factor * m := by
  cases h <;> simp

theorem SignText.factor_eq {s : List Char} {factor : Int} (h : SignText s factor) :
    factor = 1 ∨ factor = -1 := by
  cases h <;> decide

/-- Digits, in base sixteen after their mark. -/
inductive MagnitudeText : List Char → Nat → Prop where
  | decimal {digits : List Char} (hne : digits ≠ []) (hd : ∀ c ∈ digits, isDigit c = true) :
      MagnitudeText digits (placeValue 10 digits)
  | hexadecimal {digits : List Char} (hne : digits ≠ [])
      (hd : ∀ c ∈ digits, isHexDigit c = true) :
      MagnitudeText ('0' :: 'x' :: digits) (placeValue 16 digits)

/-- A text and the integer that it denotes. -/
inductive WholeNumber : List Char → Int → Prop where
  | mk {s digits : List Char} {factor : Int} {m : Nat} (hs : SignText s factor)
      (hm : MagnitudeText digits m) : WholeNumber (s ++ digits) (factor * m)

/-- A text that the grammar takes whole as a whole number. -/
def IsIntText (text : String) : Prop :=
  ∃ ns, grammar.Parses .spaced (.rule .int) text.toList (some ([], ns))

theorem ofDigits_eq_placeValue (radix : Nat) (digits : List Char) :
    ofDigits radix digits = placeValue radix digits := by
  induction digits using List.reverseRecOn with
  | nil => rfl
  | append_singleton digits c ih =>
    rw [ofDigits_append_digit, ih, placeValue, placeValue, List.map_append, List.reverse_append,
      List.map_singleton, List.reverse_singleton, List.singleton_append, Nat.ofDigits_cons,
      Nat.add_comm, Nat.mul_comm]

theorem signText_sign (cs : List Char) : ∃ factor, SignText (sign cs).1 factor := by
  unfold sign
  split
  · exact ⟨1, .plus⟩
  · exact ⟨-1, .minus⟩
  · exact ⟨1, .absent⟩

theorem magnitudeText_unsigned {cs text rest : List Char} (h : unsigned cs = some (text, rest)) :
    ∃ m, MagnitudeText text m := by
  rcases unsigned_cases h with hr | ⟨tail, digits, rfl, hr, rfl⟩
  · exact ⟨_, .decimal (run_eq_some.mp hr).1 (run_all hr)⟩
  · exact ⟨_, .hexadecimal (run_eq_some.mp hr).1 (run_all hr)⟩

namespace MagnitudeText

variable {digits : List Char} {m : Nat} (h : MagnitudeText digits m)
include h

theorem head_ne_sign : ∀ c ∈ digits.head?, c ≠ '+' ∧ c ≠ '-' := by
  cases h with
  | decimal _ hd => exact digits_head hd
  | hexadecimal _ _ => simp

theorem unsigned_eq : unsigned digits = some (digits, []) := by
  cases h with
  | decimal hne hd =>
    rw [unsigned_of_ne, run_whole hne hd]
    rintro r rfl
    exact absurd (hd 'x' (by simp)) (by decide)
  | hexadecimal hne hd => rw [unsigned, run_whole hne hd]

theorem sign_eq {s : List Char} {factor : Int} (hs : SignText s factor) :
    sign (s ++ digits) = (s, digits) := by
  cases hs with
  | absent => exact sign_again [] h.head_ne_sign
  | plus => exact sign_again ['+'] h.head_ne_sign
  | minus => exact sign_again ['-'] h.head_ne_sign

end MagnitudeText

theorem spans_int_rule (cs : List Char) (ns : List ParseTree) :
    grammar.Parses .atomic (Grammar.body .int) cs (some ([], ns)) ↔
      ns = [] ∧ intSpan cs = some (cs, []) := by
  have hspan := spans_int cs
  dsimp only at hspan
  constructor
  · intro h
    have hu := hspan.unique h
    cases hi : intSpan cs with
    | none => rw [hi] at hu; cases hu
    | some tr =>
      obtain ⟨text, rest⟩ := tr
      rw [hi] at hu
      cases hu
      have happend := intSpan_append hi
      rw [List.append_nil] at happend
      exact ⟨rfl, by rw [happend]⟩
  · rintro ⟨rfl, hi⟩
    rw [hi] at hspan
    exact hspan

theorem intSpan_whole_iff {cs : List Char} :
    intSpan cs = some (cs, []) ↔ ∃ v, WholeNumber cs v := by
  constructor
  · intro h
    obtain ⟨digits, hu, hcs⟩ := intSpan_eq_some.mp h
    obtain ⟨factor, hs⟩ := signText_sign cs
    obtain ⟨m, hm⟩ := magnitudeText_unsigned hu
    have hw := WholeNumber.mk hs hm
    rw [← hcs] at hw
    exact ⟨_, hw⟩
  · rintro ⟨v, hs, hm⟩
    rw [intSpan_eq_some, hm.sign_eq hs]
    exact ⟨_, hm.unsigned_eq, rfl⟩

/-- The texts that the grammar takes are those that denote an integer. -/
theorem isIntText_iff (text : String) : IsIntText text ↔ ∃ v, WholeNumber text.toList v := by
  rw [← intSpan_whole_iff]
  constructor
  · rintro ⟨ns, h⟩
    obtain ⟨ks, -, hbody⟩ := h.of_rule
    exact ((spans_int_rule _ ks).mp hbody).2
  · intro hi
    exact ⟨_, .rule ((spans_int_rule _ []).mpr ⟨rfl, hi⟩)⟩

theorem isHexDigit_range {c : Char} (h : isHexDigit c = true) :
    48 ≤ c.toNat ∧ c.toNat ≤ 57 ∨ 97 ≤ c.toNat ∧ c.toNat ≤ 102 ∨ 65 ≤ c.toNat ∧ c.toNat ≤ 70 := by
  simpa [isHexDigit, isDigit, char_le_iff, or_assoc] using h

theorem hasDigit_of_isHexDigit {c : Char} (h : isHexDigit c = true) : hasDigit 16 c = true := by
  have hvalue : digitValue c < 16 := by
    have hrange := isHexDigit_range h
    simp only [digitValue, char_le_iff, Char.reduceToNat]
    split
    · omega
    · split <;> omega
  exact Bool.and_eq_true_iff.mpr ⟨h, decide_eq_true hvalue⟩

theorem hasDigit_of_isDigit {c : Char} (h : isDigit c = true) : hasDigit 10 c = true := by
  have hrange : 48 ≤ c.toNat ∧ c.toNat ≤ 57 := by simpa [isDigit, char_le_iff] using h
  have hvalue : digitValue c < 10 := by
    simp only [digitValue, char_le_iff, Char.reduceToNat]
    rw [if_pos hrange]
    omega
  have hdigit : Numeric.isDigit c = true := h
  simp [hasDigit, hdigit, hvalue]

/-- Digits without a sign are held if 63 bits hold them. -/
theorem readInteger?_of_digits {radix : Nat} {digits : List Char} (hne : digits ≠ [])
    (hd : ∀ c ∈ digits, hasDigit radix c = true) :
    readInteger? radix digits =
      if placeValue radix digits < twoPow 63 then some (placeValue radix digits : Int)
      else none := by
  have hhead : ∀ c ∈ digits.head?, c ≠ '+' ∧ c ≠ '-' := by
    intro c hc
    have hdigit := hd c (List.mem_of_mem_head? hc)
    constructor
    · rintro rfl
      simp [hasDigit, Numeric.isDigit] at hdigit
    · rintro rfl
      simp [hasDigit, Numeric.isDigit] at hdigit
  have hsign : takeSign digits = (false, digits) := takeSign_eq .absent hhead
  have hall : (!digits.isEmpty && digits.all (hasDigit radix)) = true := by simpa [hne] using hd
  have hrange (m : Nat) :
      (-(twoPow 63 : Int) ≤ (m : Int) ∧ (m : Int) < twoPow 63) = (m < twoPow 63) := by
    rw [eq_iff_iff]
    omega
  simp only [readInteger?, hsign, hall, if_true, Bool.false_eq_true, if_false, hrange,
    ofDigits_eq_placeValue]

theorem MagnitudeText.magnitude?_eq {digits : List Char} {m : Nat} (h : MagnitudeText digits m) :
    magnitude? digits = if m < twoPow 63 then some (m : Int) else none := by
  cases h with
  | decimal hne hd =>
    have hread := readInteger?_of_digits hne fun c hc => hasDigit_of_isDigit (hd c hc)
    unfold magnitude?
    split
    · exact absurd (hd 'x' (by simp)) (by decide)
    · exact hread
  | hexadecimal hne hd =>
    exact readInteger?_of_digits hne fun c hc => hasDigit_of_isHexDigit (hd c hc)

theorem MagnitudeText.intValue?_eq {text : String} {s digits : List Char} {m : Nat}
    (h : MagnitudeText digits m) (hs : sign text.toList = (s, digits)) :
    intValue? text =
      if m < twoPow 63 then some (if s = ['-'] then -(m : Int) else m) else none := by
  simp only [intValue?, hs, h.magnitude?_eq]
  by_cases hm : m < twoPow 63
  · rw [if_pos hm, if_pos hm, Option.map_some]
  · rw [if_neg hm, if_neg hm, Option.map_none]

/-- A magnitude is held before its sign, so the range is the same on both sides of zero. -/
theorem WholeNumber.intValue?_eq {text : String} {v : Int} (h : WholeNumber text.toList v) :
    intValue? text = if -2 ^ 63 < v ∧ v < 2 ^ 63 then some v else none := by
  generalize hcs : text.toList = cs at h
  obtain @⟨s, digits, factor, m, hs, hm⟩ := h
  have hbound : twoPow 63 = 2 ^ 63 := rfl
  have hrange : m < 2 ^ 63 ↔ -2 ^ 63 < factor * (m : Int) ∧ factor * (m : Int) < 2 ^ 63 := by
    rcases hs.factor_eq with rfl | rfl <;> omega
  rw [hm.intValue?_eq (hcs ▸ hm.sign_eq hs), hs.signed m, hbound]
  simp only [hrange]

/-- The text of a whole number denotes an integer, which is read if its magnitude takes no more than
63 bits. -/
theorem intText_value {text : String} (h : IsIntText text) :
    (∃ v, WholeNumber text.toList v) ∧ ∀ v, WholeNumber text.toList v →
      intValue? text = if -2 ^ 63 < v ∧ v < 2 ^ 63 then some v else none :=
  ⟨(isIntText_iff text).mp h, fun _ => WholeNumber.intValue?_eq⟩

theorem intText_value_hexadecimal : IsIntText "+0x1F" ∧ intValue? "+0x1F" = some 31 := by
  have hm : MagnitudeText ['0', 'x', '1', 'F'] 31 :=
    .hexadecimal (by decide) (List.all_eq_true.mp (by decide))
  have hw : WholeNumber "+0x1F".toList 31 := .mk .plus hm
  have h := (isIntText_iff "+0x1F").mpr ⟨31, hw⟩
  exact ⟨h, (intText_value h).2 31 hw⟩

/-- The least integer of 64 bits is not read. -/
theorem least_integer_dropped :
    IsIntText "-9223372036854775808" ∧ WholeNumber "-9223372036854775808".toList (-2 ^ 63) ∧
      intValue? "-9223372036854775808" = none := by
  have hm : MagnitudeText "9223372036854775808".toList (2 ^ 63) :=
    .decimal (by decide) (List.all_eq_true.mp (by decide))
  have h : WholeNumber "-9223372036854775808".toList (-2 ^ 63) := .mk .minus hm
  exact ⟨(isIntText_iff _).mpr ⟨_, h⟩, h, h.intValue?_eq⟩

end SchemaGen.Idl
