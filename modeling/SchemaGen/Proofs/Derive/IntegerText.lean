import SchemaGen.Derive.Constant
import SchemaGen.Proofs.Idl.WholeNumber
import SchemaGen.Proofs.Numeric.Integer

namespace SchemaGen

open Idl Numeric Text

theorem isBlank_of_isHexDigit {c : Char} (h : Idl.isHexDigit c = true) : isBlank c = false := by
  have hrange := isHexDigit_range h
  simp [isBlank]
  omega

namespace Idl

variable {s digits : List Char} {factor : Int} {m : Nat}

theorem SignText.isBlank_eq (hs : SignText s factor) : ∀ c ∈ s, isBlank c = false := by
  cases hs <;> simp [isBlank]

theorem MagnitudeText.isBlank_eq (hm : MagnitudeText digits m) :
    ∀ c ∈ digits, isBlank c = false := by
  cases hm with
  | decimal _ hd =>
    exact fun c hc => isBlank_of_isHexDigit (by simp [Idl.isHexDigit, hd c hc])
  | hexadecimal _ hd =>
    intro c hc
    rcases List.mem_cons.mp hc with rfl | hc
    · decide
    rcases List.mem_cons.mp hc with rfl | hc
    · decide
    · exact isBlank_of_isHexDigit (hd c hc)

theorem WholeNumber.isBlank_eq {cs : List Char} {v : Int} (h : WholeNumber cs v) :
    ∀ c ∈ cs, isBlank c = false := by
  obtain ⟨hs, hm⟩ := h
  exact fun c hc => (List.mem_append.mp hc).elim (hs.isBlank_eq c) (hm.isBlank_eq c)

theorem takeSign_of_text (hs : SignText s factor) (hm : MagnitudeText digits m) :
    ∃ negative, takeSign (s ++ digits) = (negative, digits) ∧
      ∀ n : Nat, Binary64.signed negative n = factor * n := by
  cases hs with
  | plus => exact ⟨false, rfl, by simp [Binary64.signed]⟩
  | minus => exact ⟨true, rfl, by simp [Binary64.signed]⟩
  | absent =>
    exact ⟨false, takeSign_eq .absent hm.head_ne_sign, by simp [Binary64.signed]⟩

end Idl

/-- A text of base sixteen with a sign. -/
def IsSignedHex (text : String) : Prop :=
  ∃ s digits, text.toList = s :: '0' :: 'x' :: digits ∧ s ∈ ['+', '-']

section Values

variable {text : String} {s digits : List Char} {factor : Int}

theorem decimal_represents (ht : text.toList = s ++ digits) (hs : SignText s factor)
    (hne : digits ≠ []) (hd : ∀ c ∈ digits, Idl.isDigit c = true)
    (hb : placeValue 10 digits ≤ exactBound) :
    (Binary64.ofText text).Represents (factor * placeValue 10 digits) := by
  have hm : MagnitudeText digits (placeValue 10 digits) := .decimal hne hd
  have hblank : ∀ c ∈ text.toList, isBlank c = false := by
    rw [ht]
    exact (WholeNumber.mk hs hm).isBlank_eq
  have hmark : ∀ c rest, text.toList = '0' :: c :: rest → c ∉ ['x', 'X', 'o', 'O', 'b', 'B'] := by
    intro c rest he hc
    have hdigit : Idl.isDigit c = true := by
      cases hs with
      | absent => exact hd c (by rw [← List.nil_append digits, ← ht, he]; simp)
      | plus | minus => rw [ht] at he; cases he
    have hnone : ∀ c ∈ ['x', 'X', 'o', 'O', 'b', 'B'], Idl.isDigit c = false := by
      simp [Idl.isDigit]
    rw [hnone c hc] at hdigit
    cases hdigit
  obtain ⟨negative, hsign, hfactor⟩ := takeSign_of_text hs hm
  rw [ofText_eq_readSigned hblank (by simp [ht, hne]) hmark, ht,
    readSigned_of_digits hsign ⟨hne, hd⟩, ofDigits_eq_placeValue, ← hfactor]
  exact toBinary64_represents negative hb

theorem hexadecimal_represents (ht : text.toList = '0' :: 'x' :: digits) (hne : digits ≠ [])
    (hd : ∀ c ∈ digits, Idl.isHexDigit c = true) (hb : placeValue 16 digits ≤ exactBound) :
    (Binary64.ofText text).Represents (placeValue 16 digits) := by
  have hm : MagnitudeText ('0' :: 'x' :: digits) (placeValue 16 digits) := .hexadecimal hne hd
  have hradix : Binary64.ofText text = readRadix 16 digits := by
    rw [ofText_eq_readFront, trim_of_not_blank (by rw [ht]; exact hm.isBlank_eq), ht]
    rfl
  rw [← ofDigits_eq_placeValue] at hb ⊢
  rw [hradix]
  exact readRadix_represents (by decide) (by decide) hne
    (fun c hc => hasDigit_of_isHexDigit (hd c hc)) hb

theorem signedHex_value {v : Int} (h : WholeNumber text.toList v) (hx : IsSignedHex text) :
    Binary64.ofText text = .nan := by
  obtain ⟨c, digits, ht, hc⟩ := hx
  have hsign : ∃ negative, takeSign text.toList = (negative, '0' :: 'x' :: digits) := by
    rw [ht]
    simp only [List.mem_cons, List.not_mem_nil, or_false] at hc
    rcases hc with rfl | rfl
    · exact ⟨false, rfl⟩
    · exact ⟨true, rfl⟩
  have hmark : ∀ d rest, text.toList = '0' :: d :: rest → d ∉ ['x', 'X', 'o', 'O', 'b', 'B'] := by
    intro d rest he
    rw [ht] at he
    cases he
    exact absurd hc (by decide)
  obtain ⟨negative, hs⟩ := hsign
  rw [ofText_eq_readSigned h.isBlank_eq (by simp [ht]) hmark, readSigned_of_mark hs]

theorem wholeNumber_represents {v : Int} (h : WholeNumber text.toList v)
    (hx : ¬ IsSignedHex text) (hb : v.natAbs ≤ exactBound) :
    (Binary64.ofText text).Represents v := by
  generalize ht : text.toList = cs at h
  obtain @⟨s, digits, factor, m, hs, hm⟩ := h
  have hm' : m ≤ exactBound := by
    rcases hs.factor_eq with rfl | rfl <;> simpa using hb
  cases hm with
  | decimal hne hd => exact decimal_represents ht hs hne hd hm'
  | hexadecimal hne hd =>
    cases hs with
    | absent =>
      rw [Int.one_mul]
      exact hexadecimal_represents ht hne hd hm'
    | plus => exact absurd ⟨'+', _, ht, by decide⟩ hx
    | minus => exact absurd ⟨'-', _, ht, by decide⟩ hx

end Values

/-- The text of an integer of at most 53 bits denotes the same integer as a constant, unless it has
a sign before the mark of base sixteen. Then the constant is no number. -/
theorem integer_constant {text : String} {v : Int} (h : IsIntText text)
    (hv : intValue? text = some v) (hb : v.natAbs ≤ 2 ^ 53) :
    (¬ IsSignedHex text → ∃ n, (ConstExpr.int text).value = .number n ∧ n.Represents v) ∧
      (IsSignedHex text → (ConstExpr.int text).value = .number .nan) := by
  obtain ⟨w, hw⟩ := (isIntText_iff text).mp h
  have hwv : w = v := by
    rw [hw.intValue?_eq] at hv
    split at hv
    · exact Option.some.inj hv
    · cases hv
  subst hwv
  refine ⟨fun hx => ⟨_, rfl, wholeNumber_represents hw hx hb⟩, fun hx => ?_⟩
  rw [ConstExpr.value, signedHex_value hw hx]

theorem integer_constant_decimal :
    ∃ n, (ConstExpr.int "-042").value = .number n ∧ n.Represents (-42) := by
  have hm : MagnitudeText ['0', '4', '2'] 42 :=
    .decimal (by decide) (List.all_eq_true.mp (by decide))
  have hw : WholeNumber "-042".toList (-42) := .mk .minus hm
  have hx : ¬ IsSignedHex "-042" := by
    rintro ⟨_, _, he, -⟩
    cases he
  exact (integer_constant ((isIntText_iff _).mpr ⟨_, hw⟩) (by decide) (by decide)).1 hx

/-- A member of an enum is read where the constant of the same text is no number. -/
theorem signed_hexadecimal_differs :
    IsIntText "-0x10" ∧ intValue? "-0x10" = some (-16) ∧
      ¬ ∃ n, (ConstExpr.int "-0x10").value = .number n ∧ n.Represents (-16) := by
  have hm : MagnitudeText ['0', 'x', '1', '0'] 16 :=
    .hexadecimal (by decide) (List.all_eq_true.mp (by decide))
  have hw : WholeNumber "-0x10".toList (-16) := .mk .minus hm
  refine ⟨(isIntText_iff _).mpr ⟨_, hw⟩, hw.intValue?_eq, ?_⟩
  rintro ⟨n, hn, hr⟩
  have hx : IsSignedHex "-0x10" := ⟨'-', ['1', '0'], rfl, by decide⟩
  rw [ConstExpr.value, signedHex_value hw hx] at hn
  cases hn
  obtain ⟨negative, m, he, -⟩ := hr
  cases he

end SchemaGen
