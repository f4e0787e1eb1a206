import SchemaGen.Idl.Grammar
import SchemaGen.Idl.Walk
import SchemaGen.Proofs.Idl.NumberLexeme

namespace SchemaGen.Idl

open Peg

/-- In atomic mode the expression matches up to the rest that a function gives, and leaves no
nodes. -/
def Spans (e : Expr Rule) (f : List Char → Option (List Char)) : Prop :=
  ∀ cs, grammar.Parses .atomic e cs ((f cs).map fun rest => (rest, []))

/-- The rest after one character of a class. -/
def dropChar? (test : Char → Bool) : List Char → Option (List Char)
  | c :: rest => if test c then some rest else none
  | [] => none

theorem spans_literal (text : String) : Spans (.literal text) (dropText? text.toList) := by
  intro cs
  cases h : dropText? text.toList cs with
  | none =>
    apply Grammar.Parses.literal_none
    rintro ⟨rest, hr⟩
    rw [dropText?_eq_some.mpr hr.symm] at h
    cases h
  | some rest =>
    rw [dropText?_eq_some.mp h]
    exact .literal

theorem spans_char (test : Char → Bool) : Spans (.char test) (dropChar? test) := by
  intro cs
  match cs with
  | [] => exact .char_none (by simp)
  | c :: rest =>
    by_cases h : test c = true
    · simp only [dropChar?, if_pos h]
      exact .char h
    · simp only [dropChar?, if_neg h]
      exact .char_none (by simpa using h)

section Combinators

variable {a b : Expr Rule} {f k : List Char → Option (List Char)}

theorem Spans.congr (h : Spans a f) (hf : ∀ cs, f cs = k cs) : Spans a k := by
  intro cs
  rw [← hf cs]
  exact h cs

theorem Spans.seq (ha : Spans a f) (hb : Spans b k) :
    Spans (.seq a b) fun cs => (f cs).bind k := by
  intro cs
  dsimp only
  have hfront := ha cs
  cases hf : f cs with
  | none =>
    rw [hf] at hfront
    exact .seq_first hfront
  | some mid =>
    rw [hf] at hfront
    have hback := hb mid
    rw [Option.bind_some]
    cases hk : k mid with
    | none =>
      rw [hk] at hback
      exact .seq_second hfront .empty hback
    | some rest =>
      rw [hk] at hback
      exact .seq hfront .empty hback

theorem Spans.choice (ha : Spans a f) (hb : Spans b k) :
    Spans (.choice a b) fun cs => (f cs).or (k cs) := by
  intro cs
  dsimp only
  have hfirst := ha cs
  cases hf : f cs with
  | none =>
    rw [hf] at hfirst
    exact .second hfirst (hb cs)
  | some rest =>
    rw [hf] at hfirst
    exact .first hfirst

theorem Spans.optional (ha : Spans a f) : Spans (.optional a) fun cs => some ((f cs).getD cs) := by
  intro cs
  dsimp only
  have h := ha cs
  cases hf : f cs with
  | none =>
    rw [hf] at h
    exact .optional_none h
  | some rest =>
    rw [hf] at h
    exact .optional h

theorem Spans.absent (ha : Spans a f) :
    Spans (.absent a) fun cs => if (f cs).isSome then none else some cs := by
  intro cs
  dsimp only
  have h := ha cs
  cases hf : f cs with
  | none =>
    rw [hf] at h
    exact .absent h
  | some rest =>
    rw [hf] at h
    exact .absent_none h

/-- A repetition goes on as long as its item matches. -/
theorem Spans.many (ha : Spans a f) {r : List Char → List Char}
    (hs : ∀ cs mid, f cs = some mid → mid.length < cs.length)
    (hn : ∀ cs, f cs = none → r cs = cs) (hm : ∀ cs mid, f cs = some mid → r cs = r mid) :
    Spans (.many a) fun cs => some (r cs) := by
  intro cs
  induction hl : cs.length using Nat.strongRecOn generalizing cs with
  | ind n ih =>
    dsimp only at ih ⊢
    have h := ha cs
    cases hf : f cs with
    | none =>
      rw [hf] at h
      rw [hn cs hf]
      exact .many_nil h
    | some mid =>
      rw [hf] at h
      have hrest := ih mid.length (hl ▸ hs cs mid hf) mid rfl
      have hnext := ha mid
      rw [hm cs mid hf]
      cases hf' : f mid with
      | none =>
        rw [hf'] at hnext
        rw [hn mid hf']
        exact .many_last h .empty hnext
      | some next =>
        rw [hf'] at hnext
        exact .many_more h .empty hnext hrest

end Combinators

theorem dropChar?_eq_some {test : Char → Bool} {cs rest : List Char} :
    dropChar? test cs = some rest ↔ ∃ c, cs = c :: rest ∧ test c = true := by
  match cs with
  | [] => simp [dropChar?]
  | c :: cs =>
    simp only [dropChar?, List.cons.injEq]
    split <;> grind

theorem dropChar?_eq_none {test : Char → Bool} {cs : List Char} (h : dropChar? test cs = none) :
    Stops test cs := by
  match cs with
  | [] => exact stops_nil test
  | c :: cs =>
    by_cases hc : test c = true
    · simp [dropChar?, hc] at h
    · simp [Stops, hc]

theorem spans_many_char (test : Char → Bool) :
    Spans (.many (.char test)) fun cs => some (cs.dropWhile test) := by
  apply (spans_char test).many
  · intro cs mid h
    obtain ⟨c, rfl, -⟩ := dropChar?_eq_some.mp h
    simp
  · intro cs h
    exact dropWhile_append_stop (a := []) (by simp) (dropChar?_eq_none h)
  · intro cs mid h
    obtain ⟨c, rfl, hc⟩ := dropChar?_eq_some.mp h
    rw [List.dropWhile_cons_of_pos hc]

theorem spans_some_char (test : Char → Bool) :
    Spans (Expr.some (.char test)) fun cs => (run test cs).map Prod.snd := by
  apply ((spans_char test).seq (spans_many_char test)).congr
  intro cs
  match cs with
  | [] => rfl
  | c :: cs =>
    by_cases h : test c = true
    · simp [dropChar?, run, h]
    · simp [dropChar?, run, h]

theorem spans_sign : Spans Grammar.optionalSign fun cs => some (sign cs).2 := by
  apply ((spans_literal "+").choice (spans_literal "-")).optional.congr
  intro cs
  match cs with
  | [] => rfl
  | c :: cs =>
    by_cases hp : c = '+'
    · simp [hp, sign, dropText?]
    · by_cases hm : c = '-'
      · simp [hm, sign, dropText?]
      · simp [sign, dropText?, hp, hm, Ne.symm hp, Ne.symm hm]

theorem spans_exponent : Spans Grammar.exponent fun cs => (exponent cs).map Prod.snd := by
  have hmark := (spans_literal "e").choice (spans_literal "E")
  apply (hmark.seq (spans_sign.seq (spans_some_char isDigit))).congr
  intro cs
  match cs with
  | [] => rfl
  | c :: cs =>
    by_cases he : c = 'e'
    · simp [he, dropText?, exponent, Function.comp_def]
    · by_cases hE : c = 'E'
      · simp [hE, dropText?, exponent, Function.comp_def]
      · simp [dropText?, exponent, he, hE, Ne.symm he, Ne.symm hE]

/-- The rest of a number with a point or an exponent, by the two forms that it has. -/
theorem fractionSpan_snd (cs : List Char) :
    (fractionSpan (cs.takeWhile isDigit) (cs.dropWhile isDigit)).map Prod.snd =
      ((dropText? ['.'] (cs.dropWhile isDigit)).bind fun rest =>
        ((run isDigit rest).map Prod.snd).bind fun rest =>
          some (((exponent rest).map Prod.snd).getD rest)).or
      (((run isDigit cs).map Prod.snd).bind fun rest => (exponent rest).map Prod.snd) := by
  by_cases h : ∃ rest, cs.dropWhile isDigit = '.' :: rest
  · obtain ⟨rest, hr⟩ := h
    have hnone : ((run isDigit cs).map Prod.snd).bind
        (fun rest => (exponent rest).map Prod.snd) = none := by
      unfold run
      split
      · rfl
      · simp [hr, exponent]
    have hpoint : dropText? ['.'] ('.' :: rest) = some rest := dropText?_eq_some.mpr rfl
    rw [hnone, hr, fractionSpan, Option.or_none, hpoint, Option.bind_some]
    cases run isDigit rest with
    | none => rfl
    | some digits => cases he : exponent digits.2 <;> simp [he]
  · have hne : ∀ rest, cs.dropWhile isDigit ≠ '.' :: rest := fun rest hr => h ⟨rest, hr⟩
    have hnone : dropText? ['.'] (cs.dropWhile isDigit) = none := by
      cases hd : dropText? ['.'] (cs.dropWhile isDigit) with
      | none => rfl
      | some rest => exact absurd (dropText?_eq_some.mp hd) (hne rest)
    rw [fractionSpan_of_ne hne, hnone]
    cases ht : cs.takeWhile isDigit <;> simp [run, ht]

theorem spans_double : Spans (Grammar.body .double) fun cs => (doubleSpan cs).map Prod.snd := by
  have hdigits := spans_many_char isDigit
  have hpoint := hdigits.seq
    ((spans_literal ".").seq ((spans_some_char isDigit).seq spans_exponent.optional))
  have hwhole := (spans_some_char isDigit).seq spans_exponent
  apply (spans_sign.seq (hpoint.choice hwhole)).congr
  intro cs
  have h := fractionSpan_snd (sign cs).2
  simp only [doubleSpan, Option.bind_some, Option.map_map, Function.comp_def] at h ⊢
  exact h.symm

theorem unsigned_snd (cs : List Char) :
    (unsigned cs).map Prod.snd =
      ((dropText? ['0', 'x'] cs).bind fun rest => (run isHexDigit rest).map Prod.snd).or
        ((run isDigit cs).map Prod.snd) := by
  unfold unsigned
  split
  · next rest =>
    cases h : run isHexDigit rest <;> simp [dropText?, h]
  · next hne =>
    cases hd : dropText? ['0', 'x'] cs with
    | none => simp
    | some rest => exact absurd (dropText?_eq_some.mp hd) (hne rest)

theorem spans_int : Spans (Grammar.body .int) fun cs => (intSpan cs).map Prod.snd := by
  have hhex := (spans_literal "0x").seq (spans_some_char isHexDigit)
  apply (spans_sign.seq (hhex.choice (spans_some_char isDigit))).congr
  intro cs
  have h := unsigned_snd (sign cs).2
  simp only [intSpan, Option.bind_some, Option.map_map, Function.comp_def] at h ⊢
  exact h.symm

/-- A name and the text right after it. -/
def nameSpan : List Char → Option (List Char × List Char)
  | c :: cs =>
    if isNameStart c then
      some ((c :: cs).takeWhile isNameChar, (c :: cs).dropWhile isNameChar)
    else none
  | [] => none

theorem identifier_eq (cs : List Char) :
    identifier cs = (nameSpan cs).map fun (text, rest) => (String.ofList text, skip rest) := by
  match cs with
  | [] => rfl
  | c :: cs =>
    simp only [identifier, nameSpan]
    split <;> rfl

theorem spans_name : Spans Grammar.name fun cs => (nameSpan cs).map Prod.snd := by
  apply ((spans_char isNameStart).seq (spans_many_char isNameChar)).congr
  intro cs
  match cs with
  | [] => rfl
  | c :: cs =>
    by_cases h : isNameStart c = true
    · simp [dropChar?, nameSpan, h, isNameChar_of_isNameStart h]
    · simp [dropChar?, nameSpan, h]

/-- A name or a star, and the text right after it. -/
def scopeSpan : List Char → Option (List Char × List Char)
  | '*' :: rest => some (['*'], rest)
  | cs => nameSpan cs

theorem spans_scope : Spans (Grammar.body .scope) fun cs => (scopeSpan cs).map Prod.snd := by
  apply ((spans_literal "*").choice spans_name).congr
  intro cs
  match cs with
  | [] => rfl
  | c :: cs =>
    by_cases h : c = '*'
    · simp [h, dropText?, scopeSpan]
    · simp [h, Ne.symm h, dropText?, scopeSpan]

/-- One of several words as a whole, and the text right after it. -/
def wordSpan (words : List String) (cs : List Char) : Option (List Char × List Char) :=
  if String.ofList (cs.takeWhile isNameChar) ∈ words then
    some (cs.takeWhile isNameChar, cs.dropWhile isNameChar)
  else none

/-- Words of name characters, none the start of another. -/
structure Apart (words : List String) : Prop where
  nonempty : words ≠ []
  chars : ∀ w ∈ words, w.toList.all isNameChar = true
  starts : ∀ w ∈ words, ∀ v ∈ words, w.toList <+: v.toList → w = v

theorem spans_oneOf {words : List String} (hw : words ≠ []) :
    Spans (Grammar.oneOf words) fun cs => words.findSome? fun w => dropText? w.toList cs := by
  induction words with
  | nil => exact absurd rfl hw
  | cons w words ih =>
    cases words with
    | nil => exact (spans_literal w).congr fun cs => by simp
    | cons v words =>
      apply ((spans_literal w).choice (ih (by simp))).congr
      intro cs
      cases h : dropText? w.toList cs <;> simp [h]

theorem spans_wholeWord {words : List String} (hw : Apart words) :
    Spans (Grammar.wholeWord words) fun cs => (wordSpan words cs).map Prod.snd := by
  apply ((spans_oneOf hw.nonempty).seq (spans_char isNameChar).absent).congr
  intro cs
  cases hf : words.findSome? fun w => dropText? w.toList cs with
  | none =>
    rw [wordSpan, if_neg]
    · rfl
    · intro hm
      have hd := List.findSome?_eq_none_iff.mp hf _ hm
      rw [String.toList_ofList, dropText?_eq_some.mpr List.takeWhile_append_dropWhile.symm] at hd
      cases hd
  | some rest =>
    obtain ⟨w, hm, hd⟩ := List.exists_of_findSome?_eq_some hf
    obtain rfl := dropText?_eq_some.mp hd
    have hall := List.all_eq_true.mp (hw.chars w hm)
    rw [Option.bind_some]
    cases hc : dropChar? isNameChar rest with
    | none =>
      have hs := dropChar?_eq_none hc
      rw [wordSpan, takeWhile_append_stop hall hs, dropWhile_append_stop hall hs,
        String.ofList_toList, if_pos hm]
      rfl
    | some after =>
      obtain ⟨c, rfl, hn⟩ := dropChar?_eq_some.mp hc
      have hlong : String.ofList (w.toList ++ c :: after.takeWhile isNameChar) ∉ words := by
        intro hv
        have he := hw.starts w hm _ hv (by rw [String.toList_ofList]; exact List.prefix_append _ _)
        have hl := congrArg (fun s => s.toList.length) he
        simp at hl
      rw [wordSpan, List.takeWhile_append_of_pos hall, List.takeWhile_cons_of_pos hn, if_neg hlong]
      rfl

/-- Quoted text as it was written, up to its closing mark, and the text from there on. -/
def contentSpan (mark : Char) : List Char → List Char × List Char
  | [] => ([], [])
  | '\\' :: c :: rest =>
    let (text, tail) := contentSpan mark rest
    ('\\' :: c :: text, tail)
  | c :: rest =>
    if c = mark then ([], c :: rest)
    else
      let (text, tail) := contentSpan mark rest
      (c :: text, tail)

theorem contentSpan_append (mark : Char) (cs : List Char) :
    (contentSpan mark cs).1 ++ (contentSpan mark cs).2 = cs := by
  fun_induction contentSpan mark cs <;> simp_all

/-- Quoted text is its contents with the escapes undone, between its marks. -/
theorem quotedRest_eq {mark : Char} (hm : mark ∈ quoteMarks) (cs : List Char) :
    quotedRest mark cs =
      (dropText? [mark] (contentSpan mark cs).2).map fun rest =>
        (ParseTree.unescapeAll (contentSpan mark cs).1, rest) := by
  fun_induction contentSpan mark cs with
  | case1 => rfl
  | case2 c rest text tail h ih =>
    rw [h] at ih
    rw [quotedRest, ih, Option.map_map]
    rfl
  | case3 rest hb =>
    have hne : mark ≠ '\\' := by
      rintro rfl
      simp [quoteMarks] at hm
    have hmark : dropText? [mark] (mark :: rest) = some rest := dropText?_eq_some.mpr rfl
    rw [quotedRest_cons _ hne, if_pos rfl, hmark]
    rfl
  | case4 c rest hb hc text tail h ih =>
    rw [h] at ih
    by_cases hslash : c = '\\'
    · cases rest with
      | nil =>
        cases h
        simp [quotedRest, dropText?, hc]
      | cons d rest => exact absurd rfl (hb d rest hslash)
    · have hu : ParseTree.unescapeAll (c :: text) = c :: ParseTree.unescapeAll text := by
        rw [ParseTree.unescapeAll]
        exact fun _ _ he => absurd he hslash
      rw [quotedRest_cons _ hslash, if_neg hc, ih, hu, Option.map_map]
      rfl

/-- Past one character of quoted text, or an escape. -/
def contentStep (mark : Char) : List Char → Option (List Char)
  | '\\' :: _ :: rest => some rest
  | c :: rest => if c = mark then none else some rest
  | [] => none

theorem not_escape {c : Char} {rest : List Char}
    (h : ∀ d tail, c = '\\' → rest = d :: tail → False) :
    (dropText? "\\".toList (c :: rest)).bind (dropChar? fun _ => true) = none := by
  by_cases hc : '\\' = c
  · cases rest with
    | nil => simp [dropText?, dropChar?]
    | cons d tail => exact (h d tail hc.symm rfl).elim
  · simp [dropText?, hc]

theorem spans_contentStep (mark : Char) :
    Spans
      (.choice (.seq (.literal "\\") .any)
        (.seq (.absent (.literal (String.ofList [mark]))) .any))
      (contentStep mark) := by
  have hescape := (spans_literal "\\").seq (spans_char fun _ => true)
  have hplain := (spans_literal (String.ofList [mark])).absent.seq (spans_char fun _ => true)
  apply (hescape.choice hplain).congr
  intro cs
  fun_cases contentStep mark cs
  case case1 => simp [dropText?, dropChar?]
  case case2 rest h =>
    rw [not_escape h]
    simp [dropText?]
  case case3 c rest h hc =>
    rw [not_escape h]
    simp [dropText?, dropChar?, Ne.symm hc]
  case case4 => simp [dropText?, dropChar?]

theorem contentSpan_of_none {mark : Char} {cs : List Char} (h : contentStep mark cs = none) :
    (contentSpan mark cs).2 = cs := by
  unfold contentStep at h
  split at h
  · cases h
  · next c rest hb =>
    split at h
    · next hc => rw [contentSpan, if_pos hc]; exact hb
    · cases h
  · rfl

theorem contentSpan_of_some {mark : Char} {cs mid : List Char}
    (h : contentStep mark cs = some mid) :
    mid.length < cs.length ∧ (contentSpan mark cs).2 = (contentSpan mark mid).2 := by
  unfold contentStep at h
  split at h
  · cases h
    exact ⟨by simp only [List.length_cons]; omega, rfl⟩
  · next c rest hb =>
    split at h
    · cases h
    · next hc =>
      cases h
      refine ⟨by simp only [List.length_cons]; omega, ?_⟩
      rw [contentSpan, if_neg hc]
      exact hb
  · cases h

theorem spans_quotedText (mark : Char) :
    Spans (Grammar.quotedText (String.ofList [mark])) fun cs =>
      some (contentSpan mark cs).2 := by
  apply (spans_contentStep mark).many
  · intro cs mid h
    exact (contentSpan_of_some h).1
  · intro cs h
    rw [contentSpan_of_none h]
  · intro cs mid h
    rw [(contentSpan_of_some h).2]

end SchemaGen.Idl
