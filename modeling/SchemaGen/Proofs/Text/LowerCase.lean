import Mathlib.Data.List.Infix
import SchemaGen.Text.LowerCase

namespace SchemaGen.Text

/-- A capital sigma comes first, case-ignorable characters apart, and no case follows it. It ends a
word if there is case in front of it, and stands alone otherwise. -/
def opensWithSigma (cs : List Char) : Bool :=
  match cs.dropWhile (inRanges caseIgnorableRanges) with
  | 'Σ' :: rest => !casedAhead rest
  | _ => false

variable {before other : List Char} {c : Char} {cs : List Char}

theorem sigma_cased :
    inRanges caseIgnorableRanges 'Σ' = false ∧ inRanges casedRanges 'Σ' = true := by
  decide +kernel

theorem casedAhead_of_ignorable (h : inRanges caseIgnorableRanges c = true) (before : List Char) :
    casedAhead (c :: before) = casedAhead before := by
  rw [casedAhead, List.dropWhile_cons_of_pos h]
  rfl

theorem casedAhead_of_not_ignorable (h : inRanges caseIgnorableRanges c = false)
    (before : List Char) : casedAhead (c :: before) = inRanges casedRanges c := by
  rw [casedAhead, List.dropWhile_cons_of_neg (by simp [h])]

theorem opensWithSigma_of_ignorable (h : inRanges caseIgnorableRanges c = true) (cs : List Char) :
    opensWithSigma (c :: cs) = opensWithSigma cs := by
  rw [opensWithSigma, List.dropWhile_cons_of_pos h]
  rfl

theorem opensWithSigma_of_not_ignorable (h : inRanges caseIgnorableRanges c = false)
    (hc : c ≠ 'Σ') (cs : List Char) : opensWithSigma (c :: cs) = false := by
  rw [opensWithSigma, List.dropWhile_cons_of_neg (by simp [h])]
  split
  · next he => exact absurd (List.cons.inj he).1 hc
  · rfl

theorem opensWithSigma_sigma (cs : List Char) : opensWithSigma ('Σ' :: cs) = !casedAhead cs := by
  rw [opensWithSigma, List.dropWhile_cons_of_neg (by simp [sigma_cased.1])]
  rfl

theorem opensWithSigma_of_not_mem (h : 'Σ' ∉ cs) : opensWithSigma cs = false := by
  unfold opensWithSigma
  split
  · next rest he =>
    have hmem : 'Σ' ∈ cs.dropWhile (inRanges caseIgnorableRanges) := he ▸ List.mem_cons_self
    exact absurd ((List.dropWhile_sublist _).subset hmem) h
  · rfl

/-- The lower case of a character, once the form of a sigma is decided. -/
theorem lowerFrom_cons_of_ne (hc : c ≠ 'Σ') (before cs : List Char) :
    lowerFrom before (c :: cs) =
      (if c = 'İ' then ['i', '\u0307'] else [lowerChar c]) ++ lowerFrom (c :: before) cs := by
  rw [lowerFrom, if_neg hc]

theorem lowerFrom_sigma (before cs : List Char) :
    lowerFrom before ('Σ' :: cs) =
      (if casedAhead before && !casedAhead cs then 'ς' else 'σ') ::
        lowerFrom ('Σ' :: before) cs := by
  rw [lowerFrom, if_pos rfl, List.singleton_append]

/-- Only whether there is case in front matters. -/
theorem lowerFrom_congr (h : casedAhead before = casedAhead other) (cs : List Char) :
    lowerFrom before cs = lowerFrom other cs := by
  induction cs generalizing before other with
  | nil => rfl
  | cons c cs ih =>
    have hahead : casedAhead (c :: before) = casedAhead (c :: other) := by
      cases hc : inRanges caseIgnorableRanges c with
      | true => rw [casedAhead_of_ignorable hc, casedAhead_of_ignorable hc, h]
      | false => rw [casedAhead_of_not_ignorable hc, casedAhead_of_not_ignorable hc]
    rw [lowerFrom, lowerFrom, h, ih hahead]

theorem length_lowerFrom (before other cs : List Char) :
    (lowerFrom before cs).length = (lowerFrom other cs).length := by
  induction cs generalizing before other with
  | nil => rfl
  | cons c cs ih =>
    rw [lowerFrom, lowerFrom, List.length_append, List.length_append, ih (c :: before) (c :: other)]
    split <;> rfl

/-- Case in front of a text changes how it is lower-cased exactly if it opens with a sigma that ends
a word. -/
theorem lowerFrom_eq_iff (hbefore : casedAhead before = true) (hother : casedAhead other = false)
    (cs : List Char) :
    lowerFrom before cs = lowerFrom other cs ↔ opensWithSigma cs = false := by
  induction cs generalizing before other with
  | nil => simp [lowerFrom, opensWithSigma]
  | cons c cs ih =>
    by_cases hsigma : c = 'Σ'
    · subst hsigma
      have hahead : casedAhead ('Σ' :: before) = casedAhead ('Σ' :: other) := by
        rw [casedAhead_of_not_ignorable sigma_cased.1, casedAhead_of_not_ignorable sigma_cased.1]
      rw [lowerFrom_sigma, lowerFrom_sigma, hbefore, hother, lowerFrom_congr hahead,
        opensWithSigma_sigma]
      cases casedAhead cs <;> simp
    · rw [lowerFrom_cons_of_ne hsigma, lowerFrom_cons_of_ne hsigma, List.append_cancel_left_eq]
      cases hc : inRanges caseIgnorableRanges c with
      | true =>
        rw [opensWithSigma_of_ignorable hc]
        exact ih (by rw [casedAhead_of_ignorable hc, hbefore])
          (by rw [casedAhead_of_ignorable hc, hother])
      | false =>
        have hahead : casedAhead (c :: before) = casedAhead (c :: other) := by
          rw [casedAhead_of_not_ignorable hc, casedAhead_of_not_ignorable hc]
        rw [lowerFrom_congr hahead, opensWithSigma_of_not_ignorable hc hsigma]
        simp

/-- The end of a text is lower-cased with its front in mind. -/
theorem exists_lowerFrom_append (before front back : List Char) :
    ∃ cs, lowerFrom before (front ++ back) = cs ++ lowerFrom (front.reverse ++ before) back := by
  induction front generalizing before with
  | nil => exact ⟨[], rfl⟩
  | cons c front ih =>
    obtain ⟨cs, hcs⟩ := ih (c :: before)
    rw [List.cons_append, lowerFrom, hcs, List.reverse_cons, List.append_assoc,
      List.singleton_append, ← List.append_assoc]
    exact ⟨_, rfl⟩

/-- In lower case a text ends in its own end, unless that end opens with a sigma that case in front
turns into a final one. -/
theorem lowerFrom_suffix_iff (front back : List Char) :
    lowerFrom [] back <:+ lowerFrom [] (front ++ back) ↔
      ¬ (opensWithSigma back = true ∧ casedAhead front.reverse = true) := by
  obtain ⟨cs, hcs⟩ := exists_lowerFrom_append [] front back
  rw [List.append_nil] at hcs
  have hend : lowerFrom [] back <:+ lowerFrom [] (front ++ back) ↔
      lowerFrom front.reverse back = lowerFrom [] back := by
    rw [hcs]
    have hlength := length_lowerFrom [] front.reverse back
    constructor
    · intro h
      have hsuffix := List.suffix_of_suffix_length_le h (List.suffix_append cs _) hlength.le
      exact (hsuffix.eq_of_length hlength).symm
    · intro h
      rw [h]
      exact List.suffix_append cs _
  rw [hend]
  cases hahead : casedAhead front.reverse with
  | true =>
    rw [lowerFrom_eq_iff hahead rfl]
    simp
  | false =>
    have hsame : casedAhead front.reverse = casedAhead [] := hahead
    simp [lowerFrom_congr hsame]

end SchemaGen.Text
