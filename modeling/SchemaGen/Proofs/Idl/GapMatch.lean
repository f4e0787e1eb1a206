import SchemaGen.Proofs.Idl.LexemeMatch

namespace SchemaGen.Idl

open Peg

/-- The text from the first place on at which something matches. -/
def upTo (f : List Char → Option (List Char)) : List Char → List Char
  | [] => []
  | c :: cs => if (f (c :: cs)).isSome then c :: cs else upTo f cs

theorem Spans.upTo {a : Expr Rule} {f : List Char → Option (List Char)} (ha : Spans a f) :
    Spans (.many (.seq (.absent a) .any)) fun cs => some (upTo f cs) := by
  have hitem := ha.absent.seq (spans_char fun _ => true)
  apply hitem.many
  · intro cs mid h
    split at h
    · cases h
    · obtain ⟨c, rfl, -⟩ := dropChar?_eq_some.mp h
      simp
  · intro cs h
    match cs with
    | [] => rfl
    | c :: cs =>
      split at h
      · next hf => rw [Idl.upTo, if_pos hf]
      · simp [dropChar?] at h
  · intro cs mid h
    split at h
    · cases h
    · next hf =>
      obtain ⟨c, rfl, -⟩ := dropChar?_eq_some.mp h
      rw [Idl.upTo, if_neg hf]

/-- Past a blank. -/
def blankStep : List Char → Option (List Char) := dropChar? ([' ', '\t', '\r', '\n'].contains ·)

/-- Past a block comment that is closed. -/
def blockStep (cs : List Char) : Option (List Char) :=
  (dropText? ['/', '*'] cs).bind fun body => dropText? blockEnd (upTo (dropText? blockEnd) body)

/-- Past a line comment, up to its line break. -/
def lineStep (cs : List Char) : Option (List Char) :=
  ((dropText? ['/', '/'] cs).or (dropText? ['#'] cs)).bind fun body =>
    some (body.dropWhile fun c => !isBreak c)

/-- Past a blank or a comment. -/
def gapStep (cs : List Char) : Option (List Char) :=
  (blankStep cs).or ((blockStep cs).or (lineStep cs))

theorem spans_blank : Spans Grammar.blank blankStep := by
  have hwords : Spans Grammar.blank fun cs => ([" ", "\t", "\r", "\n"] : List String).findSome?
      fun w => dropText? w.toList cs := spans_oneOf (by simp)
  apply hwords.congr
  intro cs
  match cs with
  | [] => rfl
  | c :: cs =>
    by_cases h : c ∈ [' ', '\t', '\r', '\n']
    · simp only [List.mem_cons, List.not_mem_nil, or_false] at h
      rcases h with rfl | rfl | rfl | rfl <;> rfl
    · simp only [List.mem_cons, List.not_mem_nil, or_false, not_or] at h
      obtain ⟨h₁, h₂, h₃, h₄⟩ := h
      simp [blankStep, dropChar?, dropText?, h₁, h₂, h₃, h₄, Ne.symm h₁, Ne.symm h₂, Ne.symm h₃,
        Ne.symm h₄]

theorem spans_lineBreak :
    Spans Grammar.lineBreak fun cs => (["\n", "\r\n", "\r"] : List String).findSome? fun w =>
      dropText? w.toList cs :=
  spans_oneOf (by simp)

theorem spans_lineText :
    Spans (.many (.seq (.absent Grammar.lineBreak) .any)) fun cs =>
      some (cs.dropWhile fun c => !isBreak c) := by
  apply spans_lineBreak.upTo.congr
  intro cs
  rw [Option.some.injEq]
  induction cs with
  | nil => rfl
  | cons c cs ih =>
    by_cases hn : c = '\n'
    · simp [upTo, dropText?, hn, isBreak]
    · by_cases hr : c = '\r'
      · cases cs <;> simp [upTo, dropText?, hr, isBreak]
      · simp [upTo, dropText?, hn, hr, Ne.symm hn, Ne.symm hr, isBreak] at ih ⊢
        exact ih

theorem spans_gapStep : Spans grammar.gap gapStep := by
  have hblock := (spans_literal "/*").seq ((spans_literal "*/").upTo.seq (spans_literal "*/"))
  have hline := ((spans_literal "//").choice (spans_literal "#")).seq spans_lineText
  exact spans_blank.choice (hblock.choice hline)

theorem upTo_suffix (f : List Char → Option (List Char)) (cs : List Char) : upTo f cs <:+ cs := by
  induction cs with
  | nil => exact List.suffix_refl _
  | cons c cs ih =>
    rw [upTo]
    split
    · exact List.suffix_refl _
    · exact ih.trans (List.suffix_cons c cs)

theorem upTo_blockEnd {body : List Char} (rest : List Char) (h : ¬ blockEnd <:+: body) :
    upTo (dropText? blockEnd) (body ++ (blockEnd ++ rest)) = blockEnd ++ rest := by
  induction body with
  | nil => simp [upTo, blockEnd, dropText?]
  | cons x body ih =>
    obtain ⟨ht, hx⟩ := not_blockEnd_of_cons h
    rw [List.cons_append, upTo, if_neg, ih ht]
    intro hs
    obtain ⟨tail, hd⟩ := Option.isSome_iff_exists.mp hs
    have he := dropText?_eq_some.mp hd
    simp only [blockEnd, List.cons_append, List.nil_append, List.cons.injEq] at he
    cases body with
    | nil => simp at he
    | cons y body =>
      simp only [List.cons_append, List.cons.injEq] at he
      exact hx ⟨he.1, body, by rw [he.2.1]⟩

theorem blockStep_eq_some {cs mid : List Char} (h : blockStep cs = some mid) :
    ∃ p, Piece p ∧ cs = p ++ mid := by
  obtain ⟨text, ht, hm⟩ := Option.bind_eq_some_iff.mp h
  obtain rfl := dropText?_eq_some.mp ht
  have hend := dropText?_eq_some.mp hm
  have hinfix : blockEnd <:+: text := by
    obtain ⟨front, hf⟩ := upTo_suffix (dropText? blockEnd) text
    exact ⟨front, mid, by rw [List.append_assoc, ← hend, hf]⟩
  obtain ⟨body, rest, rfl, hb⟩ := exists_first_blockEnd hinfix
  rw [upTo_blockEnd rest hb, List.append_cancel_left_eq] at hend
  exact ⟨_, .block hb, by simp [hend]⟩

theorem lineStep_eq_some {cs mid : List Char} (h : lineStep cs = some mid) :
    ∃ opening body, LineOpening opening ∧ cs = opening ++ body ∧
      mid = body.dropWhile fun c => !isBreak c := by
  obtain ⟨body, hb, hm⟩ := Option.bind_eq_some_iff.mp h
  rw [Option.some.injEq] at hm
  rcases Option.or_eq_some_iff.mp hb with hd | ⟨-, hd⟩
  · exact ⟨_, body, .inl rfl, dropText?_eq_some.mp hd, hm.symm⟩
  · exact ⟨_, body, .inr rfl, dropText?_eq_some.mp hd, hm.symm⟩

theorem skip_dropWhile_break (body : List Char) :
    skip (body.dropWhile fun c => !isBreak c) = skipLine body := by
  rcases exists_break body with hb | ⟨line, c, rest, rfl, hb, hc⟩
  · have hd := dropWhile_append_stop (b := []) (by simpa using hb) (stops_nil fun c => !isBreak c)
    rw [List.append_nil] at hd
    rw [skipLine_all hb, hd, skip_nil]
  · rw [skipLine_append rest hb hc, dropWhile_append_stop (by simpa using hb) (by simp [Stops, hc])]
    exact skip_piece (.blank (by grind [isBreak])) rest

theorem blankStep_eq_some {cs mid : List Char} (h : blankStep cs = some mid) :
    ∃ p, Piece p ∧ cs = p ++ mid := by
  obtain ⟨c, rfl, hc⟩ := dropChar?_eq_some.mp h
  exact ⟨[c], .blank (by simpa using hc), rfl⟩

theorem gapStep_eq_some {cs mid : List Char} (h : gapStep cs = some mid) :
    mid.length < cs.length ∧ skip cs = skip mid := by
  have piece (hp : ∃ p, Piece p ∧ cs = p ++ mid) : mid.length < cs.length ∧ skip cs = skip mid := by
    obtain ⟨p, hp, rfl⟩ := hp
    refine ⟨?_, skip_piece hp mid⟩
    cases hp <;> simp only [List.length_append, List.length_cons] <;> omega
  rcases Option.or_eq_some_iff.mp h with h | ⟨-, h⟩
  · exact piece (blankStep_eq_some h)
  rcases Option.or_eq_some_iff.mp h with h | ⟨-, h⟩
  · exact piece (blockStep_eq_some h)
  · obtain ⟨opening, body, ho, rfl, rfl⟩ := lineStep_eq_some h
    refine ⟨?_, by rw [skip_lineOpening body ho, skip_dropWhile_break]⟩
    have hl := (List.dropWhile_suffix (l := body) fun c => !isBreak c).length_le
    rcases ho with rfl | rfl <;> simp <;> omega

theorem lineStep_ne_none {opening : List Char} (body : List Char) (h : LineOpening opening) :
    lineStep (opening ++ body) ≠ none := by
  rcases h with rfl | rfl <;> simp [lineStep, dropText?]

theorem gapStep_ne_none {p : List Char} (cs : List Char) (h : Piece p) :
    gapStep (p ++ cs) ≠ none := by
  simp only [gapStep, ne_eq, Option.or_eq_none_iff, not_and]
  intro hblank hblock
  cases h with
  | blank hc => simp [blankStep, dropChar?, hc] at hblank
  | line ho hb hc =>
    rw [List.append_assoc]
    exact lineStep_ne_none _ ho
  | @block body hb =>
    have hend : dropText? blockEnd (upTo (dropText? blockEnd) (body ++ (blockEnd ++ cs))) =
        some cs := by rw [upTo_blockEnd cs hb, dropText?_eq_some]
    simp [blockStep, dropText?, hend] at hblock

theorem gapStep_settled {cs : List Char} (h : gapStep cs = none) : skip cs = cs := by
  have hs := skips cs
  generalize hr : skip cs = rest at hs
  cases hs with
  | stop hs => rfl
  | cut hu =>
    obtain ⟨ho, hb⟩ := hu
    have hline := (Option.or_eq_none_iff.mp (Option.or_eq_none_iff.mp h).2).2
    exact absurd hline (lineStep_ne_none _ ho)
  | piece hp _ => exact absurd h (gapStep_ne_none _ hp)

/-- Between two parts the grammar matches what the reader skips. -/
theorem spans_gap : Spans (.many grammar.gap) fun cs => some (skip cs) :=
  spans_gapStep.many (fun _ _ h => (gapStep_eq_some h).1) (fun _ => gapStep_settled)
    fun _ _ h => (gapStep_eq_some h).2

end SchemaGen.Idl
