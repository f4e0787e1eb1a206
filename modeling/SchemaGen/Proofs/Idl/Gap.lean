import SchemaGen.Proofs.Idl.Reader

namespace SchemaGen.Idl

/-- A text with nothing to skip at its front. -/
def Settled (cs : List Char) : Prop := skip cs = cs

/-- A character that ends a line. -/
def isBreak (c : Char) : Bool := c == '\n' || c == '\r'

/-- The characters with which a blank or a comment starts. -/
def gapOpeners : List Char := [' ', '\t', '\r', '\n', '#', '/']

/-- The closing mark of a block comment. -/
def blockEnd : List Char := ['*', '/']

/-- The opening of a comment that ends with its line. -/
def LineOpening (cs : List Char) : Prop := cs = ['/', '/'] ∨ cs = ['#']

/-- A blank or a whole comment. A line comment takes the first character of its line break. -/
inductive Piece : List Char → Prop where
  | blank {c : Char} (h : c ∈ [' ', '\t', '\r', '\n']) : Piece [c]
  | line {opening body : List Char} {c : Char} (ho : LineOpening opening)
      (hb : ∀ x ∈ body, isBreak x = false) (hc : isBreak c = true) :
      Piece (opening ++ (body ++ [c]))
  | block {body : List Char} (h : ¬ blockEnd <:+: body) :
      Piece ('/' :: '*' :: (body ++ blockEnd))

/-- A line comment that the end of the text cuts off. -/
inductive Unfinished : List Char → Prop where
  | line {opening body : List Char} (ho : LineOpening opening)
      (hb : ∀ x ∈ body, isBreak x = false) : Unfinished (opening ++ body)

/-- How a text is skipped piece by piece, and what is left. -/
inductive Skips : List Char → List Char → Prop where
  | stop {cs : List Char} (h : Settled cs) : Skips cs cs
  | cut {cs : List Char} (h : Unfinished cs) : Skips cs []
  | piece {p cs rest : List Char} (hp : Piece p) (h : Skips cs rest) : Skips (p ++ cs) rest

theorem skipLine_append {body : List Char} {c : Char} (cs : List Char)
    (hb : ∀ x ∈ body, isBreak x = false) (hc : isBreak c = true) :
    skipLine (body ++ c :: cs) = skip cs := by
  induction body with
  | nil =>
    rcases (by simpa [isBreak] using hc : c = '\n' ∨ c = '\r') with rfl | rfl <;> simp [skipLine]
  | cons x body ih =>
    have hx := hb x (by simp)
    simp only [isBreak, Bool.or_eq_false_iff, beq_eq_false_iff_ne] at hx
    have ht := ih fun y hy => hb y (by simp [hy])
    simpa [skipLine, hx] using ht

example : skipLine " a note\n\t/* b */ name".toList = "name".toList := by cbv

theorem skipLine_all {body : List Char} (hb : ∀ x ∈ body, isBreak x = false) :
    skipLine body = [] := by
  induction body with
  | nil => simp [skipLine]
  | cons x body ih =>
    have hx := hb x (by simp)
    simp only [isBreak, Bool.or_eq_false_iff, beq_eq_false_iff_ne] at hx
    have ht := ih fun y hy => hb y (by simp [hy])
    simpa [skipLine, hx] using ht

theorem not_blockEnd_of_cons {x : Char} {body : List Char} (h : ¬ blockEnd <:+: x :: body) :
    ¬ blockEnd <:+: body ∧ ¬ (x = '*' ∧ ∃ rest, body = '/' :: rest) := by
  refine ⟨fun hi => h (List.infix_cons hi), ?_⟩
  rintro ⟨rfl, rest, rfl⟩
  exact h ⟨[], rest, rfl⟩

theorem skipBlock_append {body : List Char} (opening cs : List Char)
    (h : ¬ blockEnd <:+: body) : skipBlock opening (body ++ (blockEnd ++ cs)) = skip cs := by
  induction body with
  | nil => simp [skipBlock, blockEnd]
  | cons x body ih =>
    obtain ⟨ht, hx⟩ := not_blockEnd_of_cons h
    rw [List.cons_append, skipBlock]
    · exact ih ht
    · rintro rest rfl he
      cases body with
      | nil => simp [blockEnd] at he
      | cons y body =>
        simp only [List.cons_append, List.cons.injEq] at he
        exact hx ⟨rfl, body, by rw [he.1]⟩

theorem skipBlock_open {body : List Char} (opening : List Char) (h : ¬ blockEnd <:+: body) :
    skipBlock opening body = opening := by
  induction body with
  | nil => simp [skipBlock]
  | cons x body ih =>
    obtain ⟨ht, hx⟩ := not_blockEnd_of_cons h
    rw [skipBlock]
    · exact ih ht
    · rintro rest rfl rfl
      exact hx ⟨rfl, rest, rfl⟩

/-- The first place where a block comment ends. -/
theorem exists_first_blockEnd {cs : List Char} (h : blockEnd <:+: cs) :
    ∃ body rest, cs = body ++ (blockEnd ++ rest) ∧ ¬ blockEnd <:+: body := by
  induction cs with
  | nil => simp [blockEnd] at h
  | cons x cs ih =>
    by_cases hx : blockEnd <+: x :: cs
    · obtain ⟨rest, hr⟩ := hx
      exact ⟨[], rest, hr.symm, by simp [blockEnd]⟩
    · have ht : blockEnd <:+: cs := by
        rcases List.infix_cons_iff.mp h with h | h
        · exact absurd h hx
        · exact h
      obtain ⟨body, rest, rfl, hb⟩ := ih ht
      refine ⟨x :: body, rest, rfl, ?_⟩
      intro hi
      rcases List.infix_cons_iff.mp hi with hi | hi
      · obtain ⟨s, hs⟩ := hi
        exact hx ⟨s ++ (blockEnd ++ rest), by rw [← List.append_assoc, hs]; rfl⟩
      · exact hb hi

/-- A text without a line break, or its first line and the rest. -/
theorem exists_break (cs : List Char) : (∀ x ∈ cs, isBreak x = false) ∨
    ∃ body c rest, cs = body ++ c :: rest ∧ (∀ x ∈ body, isBreak x = false) ∧
      isBreak c = true := by
  induction cs with
  | nil => simp
  | cons x cs ih =>
    cases hx : isBreak x with
    | true => exact .inr ⟨[], x, cs, rfl, by simp, hx⟩
    | false =>
      rcases ih with h | ⟨body, c, rest, rfl, hb, hc⟩
      · exact .inl (by simpa [hx] using h)
      · exact .inr ⟨x :: body, c, rest, rfl, by simpa [hx] using hb, hc⟩

theorem skip_lineOpening {opening : List Char} (cs : List Char) (h : LineOpening opening) :
    skip (opening ++ cs) = skipLine cs := by
  rcases h with rfl | rfl <;> simp [skip]

@[simp] theorem skip_nil : skip [] = [] := by simp [skip]

/-- A front that is neither blank nor the mark of a comment stays. -/
theorem skip_cons {c : Char} (cs : List Char) (h : c ∉ gapOpeners) :
    skip (c :: cs) = c :: cs := by
  rw [skip.eq_def]
  split <;> simp_all [gapOpeners]

theorem skip_piece {p : List Char} (hp : Piece p) (cs : List Char) : skip (p ++ cs) = skip cs := by
  cases hp with
  | blank h =>
    simp only [List.mem_cons, List.not_mem_nil, or_false] at h
    rcases h with rfl | rfl | rfl | rfl <;> simp [skip]
  | line ho hb hc =>
    rw [List.append_assoc, skip_lineOpening _ ho, List.append_assoc]
    exact skipLine_append cs hb hc
  | block h =>
    rw [List.cons_append, List.cons_append, List.append_assoc, skip]
    exact skipBlock_append _ cs h

theorem Skips.skip_eq {cs rest : List Char} (h : Skips cs rest) :
    skip cs = rest ∧ Settled rest := by
  induction h with
  | stop h => exact ⟨h, h⟩
  | cut h =>
    obtain ⟨ho, hb⟩ := h
    exact ⟨by rw [skip_lineOpening _ ho, skipLine_all hb], skip_nil⟩
  | piece hp _ ih => exact ⟨by rw [skip_piece hp, ih.1], ih.2⟩

private theorem skips_line {opening cs : List Char} (ho : LineOpening opening)
    (ih : ∀ rest, rest.length < cs.length → Skips rest (skip rest)) :
    Skips (opening ++ cs) (skipLine cs) := by
  rcases exists_break cs with hb | ⟨body, c, rest, rfl, hb, hc⟩
  · rw [skipLine_all hb]
    exact .cut (.line ho hb)
  · rw [skipLine_append rest hb hc]
    have hr := ih rest (by simp only [List.length_append, List.length_cons]; omega)
    have hp := Skips.piece (Piece.line ho hb hc) hr
    simpa using hp

private theorem skips_block {cs : List Char}
    (ih : ∀ rest, rest.length < cs.length → Skips rest (skip rest)) :
    Skips ('/' :: '*' :: cs) (skipBlock ('/' :: '*' :: cs) cs) := by
  by_cases h : blockEnd <:+: cs
  · obtain ⟨body, rest, rfl, hb⟩ := exists_first_blockEnd h
    rw [skipBlock_append _ _ hb]
    have hr := ih rest (by simp only [List.length_append, blockEnd, List.length_cons]; omega)
    have hp := Skips.piece (Piece.block hb) hr
    simpa using hp
  · rw [skipBlock_open _ h]
    exact .stop (by rw [Settled, skip, skipBlock_open _ h])

/-- Skipping goes piece by piece, to the end. -/
theorem skips (cs : List Char) : Skips cs (skip cs) := by
  induction hn : cs.length using Nat.strongRecOn generalizing cs with
  | ind n ih =>
    have short {rest : List Char} (h : rest.length < cs.length) : Skips rest (skip rest) :=
      ih rest.length (hn ▸ h) rest rfl
    have blank {c : Char} {rest : List Char} (h : c ∈ [' ', '\t', '\r', '\n'])
        (hr : Skips rest (skip rest)) : Skips (c :: rest) (skip rest) := .piece (.blank h) hr
    rw [skip.eq_def]
    split
    case h_1 | h_2 | h_3 | h_4 => exact blank (by simp) (short (by simp))
    case h_5 =>
      exact skips_line (.inr rfl) fun r h => short (by simp only [List.length_cons]; omega)
    case h_6 =>
      exact skips_line (.inl rfl) fun r h => short (by simp only [List.length_cons]; omega)
    case h_7 => exact skips_block fun r h => short (by simp only [List.length_cons]; omega)
    case h_8 =>
      apply Skips.stop
      rw [Settled, skip.eq_def]
      split <;> simp_all

/-- Skipping leaves nothing to skip. -/
theorem settled_skip (cs : List Char) : Settled (skip cs) := (skips cs).skip_eq.2

theorem skip_of_settled {cs : List Char} (h : Settled cs) : skip cs = cs := h

theorem Skips.length_le {cs rest : List Char} (h : Skips cs rest) : rest.length ≤ cs.length := by
  induction h with
  | stop _ => exact Nat.le_refl _
  | cut _ => exact Nat.zero_le _
  | piece _ _ ih =>
    rw [List.length_append]
    omega

theorem skip_length_le (cs : List Char) : (skip cs).length ≤ cs.length := (skips cs).length_le

theorem skipLine_length_le (cs : List Char) : (skipLine cs).length ≤ cs.length := by
  have h := skip_length_le (skipLine ('#' :: cs))
  rcases exists_break cs with hb | ⟨body, c, rest, rfl, hb, hc⟩
  · simp [skipLine_all hb]
  · rw [skipLine_append rest hb hc]
    have hr := skip_length_le rest
    simp only [List.length_append, List.length_cons]
    omega

/-- A settled text starts with no blank and with no line comment. -/
theorem Settled.head {c : Char} {cs : List Char} (h : Settled (c :: cs)) :
    c ∉ [' ', '\t', '\r', '\n', '#'] := by
  have hl : (skip (c :: cs)).length = cs.length + 1 := by rw [skip_of_settled h, List.length_cons]
  have hs := skip_length_le cs
  have hn := skipLine_length_le cs
  intro hc
  simp only [List.mem_cons, List.not_mem_nil, or_false] at hc
  rcases hc with rfl | rfl | rfl | rfl | rfl <;> simp only [skip] at hl <;> omega

/-- A line break after a text that is all skipped ends its last comment. -/
theorem skip_append_newline {cs : List Char} (tail : List Char) (h : skip cs = []) :
    skip (cs ++ '\n' :: tail) = skip tail := by
  have hs := skips cs
  rw [h] at hs
  generalize hr : ([] : List Char) = rest at hs
  induction hs with
  | stop h =>
    subst hr
    exact skip_piece (.blank (c := '\n') (by simp)) tail
  | cut hu =>
    obtain ⟨ho, hb⟩ := hu
    rw [List.append_assoc, skip_lineOpening _ ho, skipLine_append tail hb (by decide)]
  | @piece p cs rest hp hs ih =>
    rw [List.append_assoc, skip_piece hp]
    exact ih (by rw [← skip_piece hp, h]) hr

/-- Where skipping stops at a lexeme, what follows the text changes nothing. -/
theorem skip_append {cs rest : List Char} {c : Char} (tail : List Char)
    (h : skip cs = c :: rest) (hc : c ≠ '/') : skip (cs ++ tail) = c :: (rest ++ tail) := by
  have hs := skips cs
  rw [h] at hs
  generalize hr : c :: rest = front at hs
  induction hs with
  | stop hs =>
    subst hr
    apply skip_cons
    have hh := hs.head
    simp_all [gapOpeners]
  | cut _ => simp at hr
  | @piece p cs front hp hs ih =>
    rw [List.append_assoc, skip_piece hp]
    exact ih (by rw [← skip_piece hp, h]) hr

end SchemaGen.Idl
