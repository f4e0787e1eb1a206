import SchemaGen.Proofs.Numeric.DecimalText
import SchemaGen.Proofs.Text.Split

namespace SchemaGen.Numeric

open Binary64

/-- `Infinity` or a decimal, with a sign or without. -/
def readSigned (cs : List Char) : Binary64 :=
  let (negative, body) := takeSign cs
  if body = "Infinity".toList then infinity negative
  else match readDecimal body with
    | some d => d.toBinary64 negative
    | none => nan

/-- The number of a text by how it starts. -/
def readFront : List Char → Binary64
  | [] => zero
  | '0' :: 'x' :: digits | '0' :: 'X' :: digits => readRadix 16 digits
  | '0' :: 'o' :: digits | '0' :: 'O' :: digits => readRadix 8 digits
  | '0' :: 'b' :: digits | '0' :: 'B' :: digits => readRadix 2 digits
  | cs => readSigned cs

theorem isAlpha_iff {c : Char} :
    c.isAlpha = true ↔ 65 ≤ c.toNat ∧ c.toNat ≤ 90 ∨ 97 ≤ c.toNat ∧ c.toNat ≤ 122 := by
  have hupper : c.isUpper = true ↔ 'A'.val ≤ c.val ∧ c.val ≤ 'Z'.val := decide_eq_true_iff
  have hlower : c.isLower = true ↔ 'a'.val ≤ c.val ∧ c.val ≤ 'z'.val :=
    Bool.and_eq_true_iff.trans (and_congr decide_eq_true_iff decide_eq_true_iff)
  have halpha : c.isAlpha = true ↔ c.isUpper = true ∨ c.isLower = true := Bool.or_eq_true_iff
  rw [halpha, hupper, hlower]
  simp only [UInt32.le_iff_toNat_le]
  rfl

theorem isOddLetter_of_toLower {c : Char} (h : c.toLower = 'n') : isOddLetter c = true := by
  have hlower : c ≠ 'e' := by
    rintro rfl
    exact absurd h (by decide)
  have hupper : c ≠ 'E' := by
    rintro rfl
    exact absurd h (by decide)
  have halpha : c.isAlpha = true := by
    by_cases hu : 'A'.val ≤ c.val ∧ c.val ≤ 'Z'.val
    · exact isAlpha_iff.mpr (.inl hu)
    · have hsame : c.toLower = c := dif_neg hu
      rw [← hsame, h]
      decide
  simp [isOddLetter, halpha, hlower, hupper]

theorem not_isOddLetter {c : Char} (h : isDecimalChar c = true) : isOddLetter c = false := by
  simp only [isDecimalChar, Bool.or_eq_true, beq_iff_eq] at h
  rcases h with ((((hdigit | rfl) | rfl) | rfl) | rfl) | rfl
  · have halpha : c.isAlpha = false := by
      simp [isDigit, char_le_iff] at hdigit
      rw [← Bool.not_eq_true, isAlpha_iff]
      omega
    simp [isOddLetter, halpha]
  all_goals decide

/-- The words that the general reader knows all have an odd letter. -/
theorem readGeneral_eq {cs : List Char} (h : ∀ c ∈ cs, isOddLetter c = false) :
    readGeneral cs = match readDecimal (takeSign cs).2 with
      | some d => d.toBinary64 (takeSign cs).1
      | none => nan := by
  have hname (word : List Char) (hn : 'n' ∈ word) : (takeSign cs).2.map Char.toLower ≠ word := by
    rintro rfl
    obtain ⟨c, hc, hlower⟩ := List.mem_map.mp hn
    obtain ⟨sign, -, hcs⟩ := exists_sign cs
    have hodd := h c (by rw [hcs]; exact List.mem_append_right sign hc)
    rw [isOddLetter_of_toLower hlower] at hodd
    cases hodd
  have hinfinity : ¬ ((takeSign cs).2.map Char.toLower = "inf".toList ∨
      (takeSign cs).2.map Char.toLower = "infinity".toList) :=
    not_or.mpr ⟨hname _ (by decide), hname _ (by decide)⟩
  exact (if_neg hinfinity).trans (if_neg (hname "nan".toList (by decide)))

/-- Behind the filters the general reader gives the same as the reader of a grammar without other
words. -/
theorem readFiltered_eq (cs : List Char) : readFiltered cs = readSigned cs := by
  obtain ⟨sign, hs, hcs⟩ := exists_sign cs
  unfold readFiltered
  by_cases hplus : cs = "Infinity".toList ∨ cs = "+Infinity".toList
  · rw [if_pos hplus]
    rcases hplus with rfl | rfl <;> decide
  by_cases hminus : cs = "-Infinity".toList
  · rw [if_neg hplus, if_pos hminus, hminus]
    decide
  have hword {sign body : List Char} {negative : Bool} (hs : IsSign sign negative)
      (hcs : cs = sign ++ body) : body ≠ "Infinity".toList := by
    rintro rfl
    cases hs with
    | absent => exact hplus (.inl hcs)
    | plus => exact hplus (.inr hcs)
    | minus => exact hminus hcs
  rw [if_neg hplus, if_neg hminus]
  by_cases hodd : cs.any isOddLetter = true
  · have hnone : readDecimal (takeSign cs).2 = none := by
      rw [Option.eq_none_iff_forall_ne_some]
      intro d hd
      obtain ⟨c, hc, hletter⟩ := List.any_eq_true.mp hodd
      rw [hcs] at hc
      have hchars := (readDecimal_eq_some_iff.mp hd).chars
      rw [not_isOddLetter (List.forall_mem_append.mpr ⟨hs.chars, hchars⟩ c hc)] at hletter
      cases hletter
    rw [if_pos hodd, readSigned]
    simp only [if_neg (hword hs hcs), hnone]
  · have hnone : ∀ c ∈ cs, isOddLetter c = false := by simpa using hodd
    rw [if_neg hodd, readGeneral_eq hnone, readSigned]
    exact (if_neg (hword hs hcs)).symm

/-- Where no mark stands at the front, none is found. -/
theorem findSome?_radixMarks {cs : List Char}
    (h : ∀ mark radix digits, (mark, radix) ∈ radixMarks → cs ≠ '0' :: mark :: digits) :
    (radixMarks.findSome? fun (mark, radix) =>
      (Text.afterFront? ['0', mark] cs).map (readRadix radix)) = none := by
  rw [List.findSome?_eq_none_iff]
  intro (mark, radix) hmem
  rw [Option.map_eq_none_iff, Option.eq_none_iff_forall_ne_some]
  intro digits hdigits
  exact h mark radix digits hmem (afterFront?_eq_some.mp hdigits)

/-- The marks, words and letters that are looked at one after another come to one look at the
front. -/
theorem ofText_eq_readFront (text : String) :
    ofText text = readFront (Text.trim text.toList) := by
  unfold ofText
  generalize Text.trim text.toList = cs
  dsimp only
  fun_cases readFront cs
  case case1 => rfl
  case case8 hnil hx hX ho hO hb hB =>
    have hnone : ∀ mark radix digits, (mark, radix) ∈ radixMarks → cs ≠ '0' :: mark :: digits := by
      intro mark radix digits hmem
      simp only [radixMarks, List.mem_cons, Prod.mk.injEq, List.not_mem_nil, or_false] at hmem
      rcases hmem with ⟨rfl, -⟩ | ⟨rfl, -⟩ | ⟨rfl, -⟩ | ⟨rfl, -⟩ | ⟨rfl, -⟩ | ⟨rfl, -⟩
      · exact hx digits
      · exact hX digits
      · exact ho digits
      · exact hO digits
      · exact hb digits
      · exact hB digits
    rw [if_neg hnil, findSome?_radixMarks hnone, Option.getD_none, readFiltered_eq]
  all_goals simp [radixMarks, Text.afterFront?]

end SchemaGen.Numeric
