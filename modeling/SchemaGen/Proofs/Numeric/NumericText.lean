import SchemaGen.Proofs.Numeric.ReadBack
import SchemaGen.Proofs.Numeric.RadixLiteral

namespace SchemaGen.Numeric

open Binary64

/-- Infinity by name or a decimal, with a sign or without. -/
inductive SignedText : List Char → Prop where
  | infinity {sign : List Char} {negative : Bool} (hs : IsSign sign negative) :
      SignedText (sign ++ "Infinity".toList)
  | decimal {sign cs : List Char} {negative : Bool} {d : Decimal} (hs : IsSign sign negative)
      (h : DecimalText cs d) : SignedText (sign ++ cs)

/-- The text of a number: digits of a radix after its mark, or what may have a sign. -/
inductive NumericText : List Char → Prop where
  | radix {cs digits : List Char} {radix : Nat} (h : RadixText cs radix digits) : NumericText cs
  | signed {cs : List Char} (h : SignedText cs) : NumericText cs

/-- White space or the end of a line. -/
def isSpace (c : Char) : Bool :=
  let n := c.toNat
  (9 ≤ n && n ≤ 13) || n == 0x20 || n == 0xA0 || n == 0x1680 || (0x2000 ≤ n && n ≤ 0x200A) ||
    n == 0x2028 || n == 0x2029 || n == 0x202F || n == 0x205F || n == 0x3000 || n == 0xFEFF

/-- The characters without those of a kind at either end. -/
def trimBy (p : Char → Bool) (cs : List Char) : List Char :=
  ((cs.dropWhile p).reverse.dropWhile p).reverse

theorem dropWhile_congr {p q : Char → Bool} {cs : List Char} (h : ∀ c ∈ cs, p c = q c) :
    cs.dropWhile p = cs.dropWhile q := by
  induction cs with
  | nil => rfl
  | cons c cs ih =>
    rw [List.forall_mem_cons] at h
    rw [List.dropWhile_cons, List.dropWhile_cons, h.1, ih h.2]

theorem trimBy_congr {p q : Char → Bool} {cs : List Char} (h : ∀ c ∈ cs, p c = q c) :
    trimBy p cs = trimBy q cs := by
  have hback : ∀ c ∈ (cs.dropWhile q).reverse, p c = q c := fun c hc =>
    h c ((List.dropWhile_suffix q).subset (List.mem_reverse.mp hc))
  rw [trimBy, dropWhile_congr h, dropWhile_congr hback, trimBy]

theorem isBlank_eq_isSpace {c : Char} (h : c ≠ '\u0085' ∧ c ≠ '\uFEFF') :
    Text.isBlank c = isSpace c := by
  have hne (d : Char) (hd : c ≠ d) : c.toNat ≠ d.toNat := fun he => hd (Char.toNat_inj.mp he)
  have hnext : c.toNat ≠ 0x85 := hne _ h.1
  have hmark : c.toNat ≠ 0xFEFF := hne _ h.2
  have hnext' : (c.toNat == 0x85) = false := beq_false_of_ne hnext
  have hmark' : (c.toNat == 0xFEFF) = false := beq_false_of_ne hmark
  simp only [Text.isBlank, isSpace, hnext', hmark', Bool.or_false]

theorem trim_eq {cs : List Char} (h : ∀ c ∈ cs, c ≠ '\u0085' ∧ c ≠ '\uFEFF') :
    Text.trim cs = trimBy isSpace cs :=
  trimBy_congr fun c hc => isBlank_eq_isSpace (h c hc)

theorem ofIndex_ne_nan (negative : Bool) (index : Nat) : ofIndex negative index ≠ nan := by
  unfold ofIndex
  split <;> simp

theorem takeSign_infinity {sign : List Char} {negative : Bool} (hs : IsSign sign negative) :
    takeSign (sign ++ "Infinity".toList) = (negative, "Infinity".toList) :=
  takeSign_eq hs (by simp)

theorem readSigned_eq_nan_iff (cs : List Char) : readSigned cs = nan ↔ ¬ SignedText cs := by
  constructor
  · intro h hcs
    cases hcs with
    | infinity hs =>
      rw [readSigned, takeSign_infinity hs] at h
      cases h
    | decimal hs hd =>
      rw [readSigned_of_text hs hd] at h
      exact ofIndex_ne_nan _ _ h
  · intro h
    obtain ⟨sign, hs, hcs⟩ := exists_sign cs
    have hinfinity : (takeSign cs).2 ≠ "Infinity".toList := by
      intro he
      rw [hcs, he] at h
      exact h (.infinity hs)
    have hnone : readDecimal (takeSign cs).2 = none := by
      rw [Option.eq_none_iff_forall_ne_some]
      intro d hd
      rw [hcs] at h
      exact h (.decimal hs (readDecimal_eq_some_iff.mp hd))
    rw [readSigned]
    simp only [if_neg hinfinity, hnone]

section Radix

variable {mark : Char} {radix : Nat} {alphabet : List Char} (hm : IsRadix mark radix alphabet)
include hm

theorem IsRadix.unique {other : Nat} {others : List Char} (h : IsRadix mark other others) :
    radix = other ∧ alphabet = others := by
  cases hm with
  | hexadecimal hm | octal hm | binary hm =>
    rcases hm with rfl | rfl <;> cases h with
    | hexadecimal h | octal h | binary h => simp_all

theorem IsRadix.not_isDecimalChar : isDecimalChar mark = false := by
  cases hm with
  | hexadecimal h | octal h | binary h => rcases h with rfl | rfl <;> decide

/-- After a mark stand digits of its radix or nothing that makes a number. -/
theorem numericText_mark_iff (digits : List Char) :
    NumericText ('0' :: mark :: digits) ↔ digits ≠ [] ∧ ∀ c ∈ digits, c ∈ alphabet := by
  constructor
  · intro h
    generalize hcs : '0' :: mark :: digits = cs at h
    cases h with
    | radix h =>
      obtain @⟨other, _, _, _, hother, hne, hd⟩ := h
      cases hcs
      obtain ⟨-, rfl⟩ := hm.unique hother
      exact ⟨hne, hd⟩
    | signed h =>
      cases h with
      | infinity hs => cases hs <;> simp at hcs
      | decimal hs hd =>
        have hchar : isDecimalChar mark = true :=
          List.forall_mem_append.mpr ⟨hs.chars, hd.chars⟩ mark (by simp [← hcs])
        rw [hm.not_isDecimalChar] at hchar
        cases hchar
  · rintro ⟨hne, hd⟩
    exact .radix (.mk hm hne hd)

theorem readRadix_eq_nan_iff (digits : List Char) :
    readRadix radix digits = nan ↔ ¬ (digits ≠ [] ∧ ∀ c ∈ digits, c ∈ alphabet) := by
  constructor
  · rintro h ⟨hne, hd⟩
    rw [readRadix_of_digits hm hd hne] at h
    exact ofIndex_ne_nan _ _ h
  · intro h
    rw [readRadix, if_neg]
    simpa [hm.hasDigit_iff] using h

end Radix

/-- Without a mark a text is read with its sign. -/
theorem ofText_of_no_mark {text : String} (hne : Text.trim text.toList ≠ [])
    (h : ∀ mark radix alphabet digits, IsRadix mark radix alphabet →
      Text.trim text.toList ≠ '0' :: mark :: digits) :
    ofText text = readSigned (Text.trim text.toList) := by
  rw [ofText_eq_readFront]
  unfold readFront
  split
  · next hcs => exact absurd hcs hne
  · next hcs => exact absurd hcs (h _ _ _ _ (.hexadecimal (.inl rfl)))
  · next hcs => exact absurd hcs (h _ _ _ _ (.hexadecimal (.inr rfl)))
  · next hcs => exact absurd hcs (h _ _ _ _ (.octal (.inl rfl)))
  · next hcs => exact absurd hcs (h _ _ _ _ (.octal (.inr rfl)))
  · next hcs => exact absurd hcs (h _ _ _ _ (.binary (.inl rfl)))
  · next hcs => exact absurd hcs (h _ _ _ _ (.binary (.inr rfl)))
  · rfl

theorem numericText_no_mark_iff {cs : List Char}
    (h : ∀ mark radix alphabet digits, IsRadix mark radix alphabet →
      cs ≠ '0' :: mark :: digits) :
    NumericText cs ↔ SignedText cs := by
  constructor
  · intro hcs
    cases hcs with
    | radix hr =>
      obtain ⟨hm, -, -⟩ := hr
      exact absurd rfl (h _ _ _ _ hm)
    | signed hs => exact hs
  · exact .signed

/-- Without the blanks around it, a text is no number exactly if it is neither empty nor a text of
the grammar. -/
theorem ofText_eq_nan_iff_trim (text : String) :
    ofText text = nan ↔
      Text.trim text.toList ≠ [] ∧ ¬ NumericText (Text.trim text.toList) := by
  by_cases hne : Text.trim text.toList = []
  · have hzero : ofText text = zero := by rw [ofText_eq_readFront, hne, readFront]
    simp [hzero, hne, zero]
  by_cases hmark : ∃ mark radix alphabet digits, IsRadix mark radix alphabet ∧
      Text.trim text.toList = '0' :: mark :: digits
  · obtain ⟨mark, radix, alphabet, digits, hm, hcs⟩ := hmark
    rw [ofText_of_mark hm hcs, hcs, readRadix_eq_nan_iff hm, numericText_mark_iff hm]
    simp
  · have hnone : ∀ mark radix alphabet digits, IsRadix mark radix alphabet →
        Text.trim text.toList ≠ '0' :: mark :: digits :=
      fun mark radix alphabet digits hm hcs => hmark ⟨mark, radix, alphabet, digits, hm, hcs⟩
    rw [ofText_of_no_mark hne hnone, readSigned_eq_nan_iff, numericText_no_mark_iff hnone]
    simp [hne]

/-- A text is no number exactly if something is left of it without the white space around it, and
that is no text of the grammar. The marks, words and letters that are looked at one after another
come to its reading. Two characters are left out, of which one is only a blank and the other is only
white space. -/
theorem ofText_eq_nan_iff (text : String)
    (h : ∀ c ∈ text.toList, c ≠ '\u0085' ∧ c ≠ '\uFEFF') :
    ofText text = readFront (Text.trim text.toList) ∧
      (ofText text = nan ↔ trimBy isSpace text.toList ≠ [] ∧
        ¬ NumericText (trimBy isSpace text.toList)) := by
  rw [← trim_eq h]
  exact ⟨ofText_eq_readFront text, ofText_eq_nan_iff_trim text⟩

/-- A digit that the radix does not have. -/
theorem ofText_eq_nan_stray :
    (∀ c ∈ "\t0b12 ".toList, c ≠ '\u0085' ∧ c ≠ '\uFEFF') ∧ ofText "\t0b12 " = nan := by
  have h : ∀ c ∈ "\t0b12 ".toList, c ≠ '\u0085' ∧ c ≠ '\uFEFF' := by simp
  have htrim : trimBy isSpace "\t0b12 ".toList = ['0', 'b', '1', '2'] := by decide
  have hstray : ¬ NumericText ['0', 'b', '1', '2'] := by
    rw [numericText_mark_iff (.binary (.inl rfl))]
    simp
  refine ⟨h, (ofText_eq_nan_iff _ h).2.mpr ?_⟩
  rw [htrim]
  exact ⟨by decide, hstray⟩

end SchemaGen.Numeric
