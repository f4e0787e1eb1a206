import SchemaGen.Numeric.Literal
import SchemaGen.Proofs.Numeric.Digits

namespace SchemaGen.Numeric

/-- Digits, at least one. -/
def IsDigits (cs : List Char) : Prop := cs ≠ [] ∧ ∀ c ∈ cs, isDigit c = true

/-- A zero in front stands alone. -/
def IsWhole (cs : List Char) : Prop := IsDigits cs ∧ (cs.head? = some '0' → cs = ['0'])

/-- A point and digits, or nothing. -/
inductive IsFraction : List Char → Prop where
  | absent : IsFraction []
  | present {ds : List Char} (h : IsDigits ds) : IsFraction ('.' :: ds)

/-- An exponent, which has a sign, or nothing. -/
inductive IsExponent : List Char → Prop where
  | absent : IsExponent []
  | present {s : Char} {ds : List Char} (hs : s = '+' ∨ s = '-') (h : IsDigits ds) :
      IsExponent ('e' :: s :: ds)

/-- A number without a sign. -/
inductive IsNumeral : List Char → Prop where
  | mk {whole fraction exponent : List Char} (hw : IsWhole whole) (hf : IsFraction fraction)
      (he : IsExponent exponent) : IsNumeral (whole ++ (fraction ++ exponent))

theorem IsWhole.front {cs : List Char} (h : IsWhole cs) :
    ∃ c ds, cs = c :: ds ∧ isDigit c = true := by
  match cs, h with
  | [], h => exact absurd rfl h.1.1
  | c :: ds, h => exact ⟨c, ds, rfl, h.1.2 c (by simp)⟩

theorem IsNumeral.front {cs : List Char} (h : IsNumeral cs) :
    ∃ c ds, cs = c :: ds ∧ isDigit c = true := by
  cases h with
  | mk hw _ _ =>
    obtain ⟨c, ds, rfl, hc⟩ := hw.front
    exact ⟨c, _, rfl, hc⟩

theorem IsWhole.numeral {cs : List Char} (h : IsWhole cs) : IsNumeral cs := by
  have hn := IsNumeral.mk h .absent .absent
  rwa [List.append_nil, List.append_nil] at hn

theorem isDigit_decimalDigits (n : Nat) : ∀ c ∈ decimalDigits n, isDigit c = true := by
  intro c hc
  have h := mem_decimalDigits hc
  simp [isDigit, h.1, h.2]

theorem isDigits_decimalDigits (n : Nat) : IsDigits (decimalDigits n) :=
  ⟨decimalDigits_ne_nil n, isDigit_decimalDigits n⟩

theorem decimalDigits_head {n : Nat} (h : n ≠ 0) : (decimalDigits n).head? ≠ some '0' := by
  induction n using Nat.strongRecOn with
  | ind n ih =>
    rw [decimalDigits, Nat.toDigits_eq_if (by decide)]
    split
    · next hlt =>
      have hall : ∀ m : Fin 10, m.val ≠ 0 → Nat.digitChar m.val ≠ '0' := by decide
      simpa using hall ⟨n, hlt⟩ h
    · next hlt =>
      have hrest := ih (n / 10) (by omega) (by omega)
      rw [← decimalDigits, List.head?_append]
      rwa [List.head?_eq_some_head (decimalDigits_ne_nil _)] at hrest ⊢

theorem isWhole_decimalDigits (n : Nat) : IsWhole (decimalDigits n) := by
  refine ⟨isDigits_decimalDigits n, ?_⟩
  intro hhead
  by_cases hn : n = 0
  · subst hn
    rfl
  · exact absurd hhead (decimalDigits_head hn)

namespace Decimal

theorem nearestIndex_zero {d : Decimal} (h : d.digits = 0) : d.nearestIndex = 0 := by
  simp [nearestIndex, h]

theorem strip_go_digits {digits : Nat} (h : digits ≠ 0) (exponent : Int) (n : Nat) :
    (strip.go digits exponent n).digits ≠ 0 := by
  induction n generalizing digits exponent with
  | zero => exact h
  | succ n ih =>
    rw [strip.go]
    split
    · exact ih (by omega) _
    · exact h

theorem strip_digits {d : Decimal} (h : d.digits ≠ 0) : d.strip.digits ≠ 0 :=
  strip_go_digits h _ _

end Decimal

theorem units_ne_zero {magnitude : Nat} (h : magnitude ≠ 0) : units magnitude ≠ 0 := by
  unfold units
  split
  · exact h
  · have hcount : 0 < fractionCount := Nat.pow_pos (by decide)
    have hpow : 0 < twoPow (magnitude / fractionCount - 1) := Nat.pow_pos (by decide)
    exact Nat.ne_of_gt (Nat.mul_pos (by omega) hpow)

/-- A candidate reads back. -/
theorem candidate?_reads {tie : Tie} {magnitude count : Nat} {d : Decimal}
    (hd : candidate? tie magnitude count = some d) : d.nearestIndex = magnitude := by
  -- Unfolded as a function, since applied to a variable its match would be evaluated.
  generalize hf : candidate? = f at hd
  delta candidate? at hf
  subst hf
  dsimp -zeta only at hd
  extract_lets exponent num den below above rest at hd
  clear_value below above rest den
  split at hd
  · cases hd
  · next hb _ =>
    cases hd
    exact beq_iff_eq.mp hb
  · next _ ha =>
    cases hd
    exact beq_iff_eq.mp ha
  · next hb ha =>
    rw [beq_iff_eq] at hb ha
    have hor : d = below ∨ d = above := by grind
    rcases hor with rfl | rfl
    · exact hb
    · exact ha

theorem candidate?_digits {tie : Tie} {magnitude count : Nat} {d : Decimal} (h : magnitude ≠ 0)
    (hd : candidate? tie magnitude count = some d) : d.digits ≠ 0 := by
  intro hz
  exact h ((candidate?_reads hd).symm.trans (Decimal.nearestIndex_zero hz))

theorem shortest_digits (tie : Tie) {magnitude : Nat} (h : magnitude ≠ 0) :
    (shortest tie magnitude).digits ≠ 0 := by
  apply Decimal.strip_digits
  cases hf : (List.range 17).findSome? fun n => candidate? tie magnitude (n + 1) with
  | some d =>
    obtain ⟨n, -, hn⟩ := List.exists_of_findSome?_eq_some hf
    exact candidate?_digits h hn
  | none =>
    rw [Option.getD_none, exactDecimal]
    generalize 1074 = k
    exact Nat.mul_ne_zero (units_ne_zero h) (Nat.ne_of_gt (Nat.pow_pos (by decide)))

namespace Decimal

variable {d : Decimal}

theorem isWhole_zeros (h : d.digits ≠ 0) (n : Nat) :
    IsWhole (decimalDigits d.digits ++ List.replicate n '0') := by
  have hd := isDigits_decimalDigits d.digits
  refine ⟨⟨by simp [hd.1], ?_⟩, ?_⟩
  · intro c hc
    rcases List.mem_append.mp hc with hc | hc
    · exact hd.2 c hc
    · rw [List.eq_of_mem_replicate hc]
      decide
  · rw [List.head?_append, List.head?_eq_some_head hd.1, Option.some_or, ← List.head?_eq_some_head]
    exact fun hz => absurd hz (decimalDigits_head h)

/-- Without a negative exponent there is no point. -/
theorem isWhole_positional (h : d.digits ≠ 0) (he : 0 ≤ d.exponent) : IsWhole d.positional := by
  have hlength : (decimalDigits d.digits).length ≠ 0 := by simp [decimalDigits_ne_nil]
  have hpoint : d.leading + 1 = (decimalDigits d.digits).length + d.exponent := by
    simp [leading, digitCount, h]
  unfold positional
  dsimp only
  rw [hpoint, if_neg (by omega), if_pos (by omega)]
  exact isWhole_zeros h _

theorem isNumeral_positional (h : d.digits ≠ 0) : IsNumeral d.positional := by
  have hd := isDigits_decimalDigits d.digits
  unfold positional
  dsimp only
  split
  · have hzero : IsWhole ['0'] := isWhole_decimalDigits 0
    have hfraction : IsDigits
        (List.replicate (-(d.leading + 1)).toNat '0' ++ decimalDigits d.digits) := by
      refine ⟨by simp [hd.1], ?_⟩
      intro c hc
      rcases List.mem_append.mp hc with hc | hc
      · rw [List.eq_of_mem_replicate hc]
        decide
      · exact hd.2 c hc
    have hn := IsNumeral.mk hzero (.present hfraction) .absent
    rwa [List.append_nil] at hn
  · split
    · exact (isWhole_zeros h _).numeral
    · next hpos hlt =>
      have hwhole : IsWhole ((decimalDigits d.digits).take (d.leading + 1).toNat) := by
        refine ⟨⟨by simp [hd.1]; omega, fun c hc => hd.2 c (List.mem_of_mem_take hc)⟩, ?_⟩
        rw [List.head?_take, if_neg (by omega)]
        exact fun hz => absurd hz (decimalDigits_head h)
      have hfraction : IsDigits ((decimalDigits d.digits).drop (d.leading + 1).toNat) :=
        ⟨by simp; omega, fun c hc => hd.2 c (List.mem_of_mem_drop hc)⟩
      have hn := IsNumeral.mk hwhole (.present hfraction) .absent
      rwa [List.append_nil] at hn

theorem isExponent_signedExponent (d : Decimal) : IsExponent ('e' :: d.signedExponent) := by
  refine .present ?_ (isDigits_decimalDigits _)
  split
  · exact .inr rfl
  · exact .inl rfl

theorem isNumeral_exponential (h : d.digits ≠ 0) :
    IsNumeral (d.mantissa ++ 'e' :: d.signedExponent) := by
  have hd := isDigits_decimalDigits d.digits
  have hhead := decimalDigits_head h
  have he := isExponent_signedExponent d
  unfold mantissa
  cases hcs : decimalDigits d.digits with
  | nil => exact absurd hcs hd.1
  | cons c rest =>
    rw [hcs] at hd hhead
    have hwhole : IsWhole [c] := by
      refine ⟨⟨by simp, fun x hx => hd.2 x (by simp_all)⟩, ?_⟩
      intro hz
      exact absurd hz hhead
    cases rest with
    | nil => exact .mk hwhole .absent he
    | cons b rest =>
      have hfraction : IsDigits (b :: rest) := ⟨by simp, fun x hx => hd.2 x (by simp_all)⟩
      exact .mk hwhole (.present hfraction) he

end Decimal

/-- The text of a finite number is a numeral, with a minus if the number is below zero. -/
theorem isNumeral_text (negative : Bool) (m : Fin finiteCount) :
    ∃ cs, IsNumeral cs ∧ (Binary64.finite negative m).text.toList =
      if negative && m.val ≠ 0 then '-' :: cs else cs := by
  unfold Binary64.text
  dsimp only
  by_cases hm : m.val = 0
  · rw [if_pos hm]
    exact ⟨['0'], (isWhole_decimalDigits 0).numeral, by simp [hm]⟩
  · rw [if_neg hm, String.toList_ofList]
    have hd := shortest_digits .up hm
    refine ⟨_, ?_, by simp only [hm, ne_eq, not_false_eq_true, decide_true, Bool.and_true]; rfl⟩
    split
    · exact Decimal.isNumeral_positional hd
    · exact Decimal.isNumeral_exponential hd

/-- A character that stands in the text of some number. -/
def isTextChar (c : Char) : Bool := c.isAlphanum || c == '.' || c == '+' || c == '-'

theorem isTextChar_of_isDigit {c : Char} (h : isDigit c = true) : isTextChar c = true := by
  have hd : c.isDigit = true := by
    simpa [isDigit, Char.isDigit, Char.le_def] using h
  simp [isTextChar, Char.isAlphanum, hd]

theorem IsNumeral.chars {cs : List Char} (h : IsNumeral cs) : ∀ c ∈ cs, isTextChar c = true := by
  have digits {ds : List Char} (hd : IsDigits ds) : ∀ c ∈ ds, isTextChar c = true :=
    fun c hc => isTextChar_of_isDigit (hd.2 c hc)
  cases h with
  | @mk whole fraction exponent hw hf he =>
    intro c hc
    rcases List.mem_append.mp hc with hc | hc
    · exact digits hw.1 c hc
    rcases List.mem_append.mp hc with hc | hc
    · cases hf with
      | absent => exact absurd hc List.not_mem_nil
      | present hd =>
        rcases List.mem_cons.mp hc with rfl | hc
        · decide
        · exact digits hd c hc
    · cases he with
      | absent => exact absurd hc List.not_mem_nil
      | present hs hd =>
        rcases List.mem_cons.mp hc with rfl | hc
        · decide
        rcases List.mem_cons.mp hc with rfl | hc
        · rcases hs with rfl | rfl <;> decide
        · exact digits hd c hc

theorem Binary64.chars_text (n : Binary64) : ∀ c ∈ n.text.toList, isTextChar c = true := by
  cases n with
  | nan => exact List.all_eq_true.mp (by decide)
  | infinity negative => cases negative <;> exact List.all_eq_true.mp (by decide)
  | finite negative m =>
    obtain ⟨cs, hcs, ht⟩ := isNumeral_text negative m
    rw [ht]
    split
    · exact List.forall_mem_cons.mpr ⟨by decide, hcs.chars⟩
    · exact hcs.chars

/-- Exactly the text of a finite number holds a digit. -/
theorem Binary64.any_isDigit_text (n : Binary64) : n.text.toList.any isDigit = n.isFinite := by
  cases n with
  | nan => decide
  | infinity negative => cases negative <;> decide
  | finite negative m =>
    obtain ⟨cs, hcs, ht⟩ := isNumeral_text negative m
    obtain ⟨c, ds, rfl, hc⟩ := hcs.front
    rw [ht]
    split <;> simp [hc, isFinite]

end SchemaGen.Numeric
