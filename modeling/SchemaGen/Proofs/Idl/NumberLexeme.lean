import SchemaGen.Proofs.Idl.Lexeme

namespace SchemaGen.Idl

/-- The rest of a number with a point or an exponent, after its whole digits. -/
def fractionSpan (whole : List Char) : List Char → Option (List Char × List Char)
  | '.' :: rest =>
    (run isDigit rest).map fun (fraction, rest) =>
      let (exp, rest) := (exponent rest).getD ([], rest)
      ('.' :: fraction ++ exp, rest)
  | rest => if whole.isEmpty then none else exponent rest

/-- A number with a point or an exponent, and the text right after it. -/
def doubleSpan (cs : List Char) : Option (List Char × List Char) :=
  let (s, cs) := sign cs
  let whole := cs.takeWhile isDigit
  (fractionSpan whole (cs.dropWhile isDigit)).map fun (text, rest) => (s ++ whole ++ text, rest)

/-- A whole number and the text right after it. -/
def intSpan (cs : List Char) : Option (List Char × List Char) :=
  let (s, cs) := sign cs
  (unsigned cs).map fun (digits, rest) => (s ++ digits, rest)

theorem fractionSpan_of_ne {whole rest : List Char} (h : ∀ r, rest ≠ '.' :: r) :
    fractionSpan whole rest = if whole.isEmpty then none else exponent rest := by
  rw [fractionSpan]
  exact h

theorem unsigned_of_ne {cs : List Char} (h : ∀ r, cs ≠ '0' :: 'x' :: r) :
    unsigned cs = run isDigit cs := by
  rw [unsigned]
  exact h

theorem double_eq (cs : List Char) :
    double cs = (doubleSpan cs).map fun (text, rest) => (String.ofList text, skip rest) := by
  unfold double doubleSpan
  dsimp only
  generalize (sign cs).1 = s
  generalize (sign cs).2.takeWhile isDigit = whole
  generalize (sign cs).2.dropWhile isDigit = rest
  split
  · next rest =>
    rw [fractionSpan]
    cases run isDigit rest <;> simp
  · next rest h =>
    rw [fractionSpan_of_ne h]
    cases whole.isEmpty
    · simp [Option.map_map, Function.comp_def, List.append_assoc]
    · rfl

theorem int_eq (cs : List Char) :
    int cs = (intSpan cs).map fun (text, rest) => (String.ofList text, skip rest) := by
  simp only [int, intSpan, Option.map_map, Function.comp_def]

section Separated

variable {s : Char} (hs : separates s = true)
include hs

theorem sign_separated (cs tail : List Char) :
    sign (cs ++ s :: tail) = ((sign cs).1, (sign cs).2 ++ s :: tail) := by
  obtain ⟨-, hp, hm⟩ := separates_iff.mp hs
  match cs with
  | [] => simp [sign, hp, hm]
  | c :: cs =>
    by_cases hcp : c = '+'
    · subst hcp
      rfl
    · by_cases hcm : c = '-'
      · subst hcm
        rfl
      · simp [sign, hcp, hcm]

omit hs in
theorem run_separated {test : Char → Bool} (ht : test s = false) (cs tail : List Char) :
    run test (cs ++ s :: tail) =
      (run test cs).map fun (text, rest) => (text, rest ++ s :: tail) := by
  unfold run
  rw [takeWhile_separated ht, dropWhile_separated ht]
  split <;> rfl

theorem exponent_separated (cs tail : List Char) :
    exponent (cs ++ s :: tail) =
      (exponent cs).map fun (text, rest) => (text, rest ++ s :: tail) := by
  match cs with
  | [] =>
    have he : ¬ (s = 'e' ∨ s = 'E') := by
      rintro (rfl | rfl) <;> simp [separates, isNameChar, isLetter] at hs
    simp [exponent, he]
  | c :: cs =>
    simp only [List.cons_append, exponent, sign_separated hs,
      run_separated (not_isDigit_of_separates hs)]
    split <;> simp [Function.comp_def]

theorem fractionSpan_separated (whole rest tail : List Char) :
    fractionSpan whole (rest ++ s :: tail) =
      (fractionSpan whole rest).map fun (text, rest) => (text, rest ++ s :: tail) := by
  by_cases h : ∃ r, rest = '.' :: r
  · obtain ⟨r, rfl⟩ := h
    rw [List.cons_append, fractionSpan, fractionSpan,
      run_separated (not_isDigit_of_separates hs)]
    cases run isDigit r with
    | none => rfl
    | some fr =>
      simp only [Option.map_some, exponent_separated hs]
      cases exponent fr.2 <;> rfl
  · have hr : ∀ r, rest ≠ '.' :: r := fun r he => h ⟨r, he⟩
    have hr' : ∀ r, rest ++ s :: tail ≠ '.' :: r := by
      intro r he
      cases rest with
      | nil =>
        cases he
        simp [separates, isNameChar] at hs
      | cons c rest =>
        rw [List.cons_append, List.cons.injEq] at he
        exact hr rest (by rw [he.1])
    rw [fractionSpan_of_ne hr, fractionSpan_of_ne hr', exponent_separated hs]
    split <;> rfl

theorem doubleSpan_separated (cs tail : List Char) :
    doubleSpan (cs ++ s :: tail) =
      (doubleSpan cs).map fun (text, rest) => (text, rest ++ s :: tail) := by
  have hd := not_isDigit_of_separates hs
  simp only [doubleSpan, sign_separated hs, takeWhile_separated hd, dropWhile_separated hd,
    fractionSpan_separated hs, Option.map_map, Function.comp_def]

theorem unsigned_separated (cs tail : List Char) :
    unsigned (cs ++ s :: tail) =
      (unsigned cs).map fun (text, rest) => (text, rest ++ s :: tail) := by
  have hd := run_separated (not_isDigit_of_separates hs) cs tail
  by_cases h : ∃ r, cs = '0' :: 'x' :: r
  · obtain ⟨r, rfl⟩ := h
    simp only [List.cons_append, unsigned, run_separated (not_isHexDigit_of_separates hs)]
    cases run isHexDigit r with
    | none => exact hd
    | some dr => rfl
  · have hc : ∀ r, cs ≠ '0' :: 'x' :: r := fun r he => h ⟨r, he⟩
    have hc' : ∀ r, cs ++ s :: tail ≠ '0' :: 'x' :: r := by
      intro r he
      match cs with
      | [] =>
        cases he
        simp [separates, isNameChar, isDigit] at hs
      | [c] =>
        cases he
        simp [separates, isNameChar, isLetter] at hs
      | c :: d :: cs =>
        simp only [List.cons_append, List.cons.injEq] at he
        exact hc cs (by rw [he.1, he.2.1])
    rw [unsigned_of_ne hc, unsigned_of_ne hc', hd]

theorem intSpan_separated (cs tail : List Char) :
    intSpan (cs ++ s :: tail) =
      (intSpan cs).map fun (text, rest) => (text, rest ++ s :: tail) := by
  simp only [intSpan, sign_separated hs, unsigned_separated hs, Option.map_map, Function.comp_def]

end Separated

theorem run_append {test : Char → Bool} {cs text rest : List Char}
    (h : run test cs = some (text, rest)) : cs = text ++ rest := by
  obtain ⟨-, rfl, rfl⟩ := run_eq_some.mp h
  exact List.takeWhile_append_dropWhile.symm

theorem run_all {test : Char → Bool} {cs text rest : List Char}
    (h : run test cs = some (text, rest)) : ∀ c ∈ text, test c = true := by
  obtain ⟨-, rfl, -⟩ := run_eq_some.mp h
  exact fun c hc => mem_takeWhile hc

/-- A run of characters of a class is read up to a character outside. -/
theorem run_stop {test : Char → Bool} {text after : List Char} (hn : text ≠ [])
    (h : ∀ c ∈ text, test c = true) (hs : Stops test after) :
    run test (text ++ after) = some (text, after) := by
  rw [run_eq_some, takeWhile_append_stop h hs, dropWhile_append_stop h hs]
  exact ⟨hn, rfl, rfl⟩

theorem run_again {test : Char → Bool} {cs text rest after : List Char}
    (h : run test cs = some (text, rest)) (hs : Stops test after) :
    run test (text ++ after) = some (text, after) :=
  run_stop (run_eq_some.mp h).1 (run_all h) hs

theorem stops_nil (test : Char → Bool) : Stops test [] := by simp [Stops]

theorem run_whole {test : Char → Bool} {text : List Char} (hne : text ≠ [])
    (h : ∀ c ∈ text, test c = true) : run test text = some (text, []) := by
  simpa using run_stop hne h (stops_nil test)

theorem run_self {test : Char → Bool} {cs text rest : List Char}
    (h : run test cs = some (text, rest)) : run test text = some (text, []) := by
  simpa using run_again h (stops_nil test)

theorem sign_append (cs : List Char) : (sign cs).1 ++ (sign cs).2 = cs := by
  unfold sign
  split <;> rfl

theorem sign_again (cs : List Char) {body : List Char}
    (h : ∀ c ∈ body.head?, c ≠ '+' ∧ c ≠ '-') :
    sign ((sign cs).1 ++ body) = ((sign cs).1, body) := by
  have hb : sign body = ([], body) := by
    unfold sign
    split
    · next rest => exact absurd rfl (h '+' rfl).1
    · next rest => exact absurd rfl (h '-' rfl).2
    · rfl
  rw [sign.eq_def cs]
  split
  · rfl
  · rfl
  · exact hb

theorem digits_head {digits : List Char} (h : ∀ c ∈ digits, isDigit c = true) :
    ∀ c ∈ digits.head?, c ≠ '+' ∧ c ≠ '-' := by
  intro c hc
  have hd := h c (List.mem_of_mem_head? hc)
  constructor <;> rintro rfl <;> simp [isDigit] at hd

/-- An exponent is its mark, perhaps a sign, and digits. -/
theorem exponent_cases {cs text rest : List Char} (h : exponent cs = some (text, rest)) :
    ∃ mark tail digits, (mark = 'e' ∨ mark = 'E') ∧ cs = mark :: tail ∧
      run isDigit (sign tail).2 = some (digits, rest) ∧
      text = mark :: ((sign tail).1 ++ digits) := by
  match cs with
  | [] => simp [exponent] at h
  | mark :: tail =>
    simp only [exponent] at h
    split at h
    · next hmark =>
      obtain ⟨⟨digits, r⟩, hr, he⟩ := Option.map_eq_some_iff.mp h
      cases he
      exact ⟨mark, tail, digits, hmark, rfl, hr, rfl⟩
    · cases h

theorem exponent_append {cs text rest : List Char}
    (h : exponent cs = some (text, rest)) : cs = text ++ rest := by
  obtain ⟨mark, tail, digits, -, rfl, hr, rfl⟩ := exponent_cases h
  have hs := sign_append tail
  rw [run_append hr] at hs
  rw [List.cons_append, List.append_assoc, hs]

theorem exponent_again {cs text rest : List Char}
    (h : exponent cs = some (text, rest)) : exponent text = some (text, []) := by
  obtain ⟨mark, tail, digits, hmark, rfl, hr, rfl⟩ := exponent_cases h
  have hs := sign_again tail (digits_head (run_all hr))
  simp only [exponent, if_pos hmark, hs, run_self hr, Option.map_some, List.cons_append]

theorem exponent_head {cs text rest : List Char} (h : exponent cs = some (text, rest)) :
    ∃ c t, text = c :: t ∧ isDigit c = false ∧ c ≠ '.' := by
  obtain ⟨mark, tail, digits, hmark, rfl, -, rfl⟩ := exponent_cases h
  refine ⟨mark, _, rfl, ?_⟩
  rcases hmark with rfl | rfl <;> decide

/-- After the whole digits stands a point with digits and perhaps an exponent, or there are whole
digits and an exponent stands after them. -/
theorem fractionSpan_cases {whole cs text rest : List Char}
    (h : fractionSpan whole cs = some (text, rest)) :
    (∃ tail fraction mid exp, cs = '.' :: tail ∧ run isDigit tail = some (fraction, mid) ∧
        (exponent mid).getD ([], mid) = (exp, rest) ∧ text = '.' :: (fraction ++ exp)) ∨
      (whole ≠ [] ∧ exponent cs = some (text, rest)) := by
  by_cases hc : ∃ r, cs = '.' :: r
  · obtain ⟨tail, rfl⟩ := hc
    rw [fractionSpan] at h
    obtain ⟨⟨fraction, mid⟩, hr, he⟩ := Option.map_eq_some_iff.mp h
    simp only [Prod.mk.injEq] at he
    obtain ⟨rfl, rfl⟩ := he
    exact .inl ⟨tail, fraction, mid, _, rfl, hr, rfl, rfl⟩
  · rw [fractionSpan_of_ne fun r he => hc ⟨r, he⟩] at h
    split at h
    · cases h
    · next hw => exact .inr ⟨by simpa using hw, h⟩

theorem fractionSpan_append {whole cs text rest : List Char}
    (h : fractionSpan whole cs = some (text, rest)) : cs = text ++ rest := by
  rcases fractionSpan_cases h with ⟨tail, fraction, mid, exp, rfl, hr, he, rfl⟩ | ⟨-, he⟩
  · have hmid : mid = exp ++ rest := by
      cases hx : exponent mid with
      | none =>
        rw [hx] at he
        cases he
        rfl
      | some er =>
        rw [hx] at he
        cases he
        exact exponent_append hx
    rw [run_append hr, hmid, List.cons_append, List.append_assoc]
  · exact exponent_append he

theorem fractionSpan_again {whole cs text rest : List Char}
    (h : fractionSpan whole cs = some (text, rest)) :
    fractionSpan whole text = some (text, []) := by
  rcases fractionSpan_cases h with ⟨tail, fraction, mid, exp, rfl, hr, he, rfl⟩ | ⟨hw, he⟩
  · cases hx : exponent mid with
    | none =>
      rw [hx] at he
      cases he
      rw [List.append_nil, fractionSpan, run_self hr]
      simp [exponent]
    | some er =>
      rw [hx] at he
      cases he
      obtain ⟨c, t, hct, hd, -⟩ := exponent_head hx
      have hs : Stops isDigit exp := by simp [Stops, hct, hd]
      rw [fractionSpan, run_again hr hs]
      simp [exponent_again hx]
  · obtain ⟨c, t, rfl, -, hp⟩ := exponent_head he
    rw [fractionSpan_of_ne (by simp [hp]), if_neg (by simpa using hw)]
    exact exponent_again he

theorem fractionSpan_head {whole cs text rest : List Char}
    (h : fractionSpan whole cs = some (text, rest)) :
    ∃ c t, text = c :: t ∧ isDigit c = false ∧ (whole = [] → c = '.') := by
  rcases fractionSpan_cases h with ⟨tail, fraction, mid, exp, -, -, -, rfl⟩ | ⟨hw, he⟩
  · exact ⟨'.', _, rfl, by decide, fun _ => rfl⟩
  · obtain ⟨c, t, rfl, hd, -⟩ := exponent_head he
    exact ⟨c, t, rfl, hd, fun he => absurd he hw⟩

theorem doubleSpan_eq_some {cs text rest : List Char} :
    doubleSpan cs = some (text, rest) ↔
      ∃ t, fractionSpan ((sign cs).2.takeWhile isDigit) ((sign cs).2.dropWhile isDigit) =
        some (t, rest) ∧ text = (sign cs).1 ++ (sign cs).2.takeWhile isDigit ++ t := by
  simp only [doubleSpan, Option.map_eq_some_iff, Prod.mk.injEq]
  constructor
  · rintro ⟨⟨t, r⟩, hf, rfl, rfl⟩
    exact ⟨t, hf, rfl⟩
  · rintro ⟨t, hf, rfl⟩
    exact ⟨(t, rest), hf, rfl, rfl⟩

theorem intSpan_eq_some {cs text rest : List Char} :
    intSpan cs = some (text, rest) ↔
      ∃ t, unsigned (sign cs).2 = some (t, rest) ∧ text = (sign cs).1 ++ t := by
  simp only [intSpan, Option.map_eq_some_iff, Prod.mk.injEq]
  constructor
  · rintro ⟨⟨t, r⟩, hf, rfl, rfl⟩
    exact ⟨t, hf, rfl⟩
  · rintro ⟨t, hf, rfl⟩
    exact ⟨(t, rest), hf, rfl, rfl⟩

theorem doubleSpan_append {cs text rest : List Char}
    (h : doubleSpan cs = some (text, rest)) : cs = text ++ rest := by
  obtain ⟨t, hf, rfl⟩ := doubleSpan_eq_some.mp h
  have hs := sign_append cs
  have hw := List.takeWhile_append_dropWhile (p := isDigit) (l := (sign cs).2)
  rw [fractionSpan_append hf] at hw
  calc cs = (sign cs).1 ++ (sign cs).2 := hs.symm
    _ = (sign cs).1 ++ ((sign cs).2.takeWhile isDigit ++ (t ++ rest)) := by rw [hw]
    _ = _ := by simp only [List.append_assoc]

theorem doubleSpan_again {cs text rest : List Char}
    (h : doubleSpan cs = some (text, rest)) : doubleSpan text = some (text, []) := by
  obtain ⟨t, hf, rfl⟩ := doubleSpan_eq_some.mp h
  obtain ⟨c, t', rfl, hd, hp⟩ := fractionSpan_head hf
  have hall : ∀ x ∈ (sign cs).2.takeWhile isDigit, isDigit x = true := fun x hx => mem_takeWhile hx
  generalize (sign cs).2.takeWhile isDigit = whole at *
  have hh : ∀ x ∈ (whole ++ c :: t').head?, x ≠ '+' ∧ x ≠ '-' := by
    intro x hx
    cases whole with
    | nil =>
      simp only [List.nil_append, List.head?_cons, Option.mem_def, Option.some.injEq] at hx
      subst hx
      rw [hp rfl]
      decide
    | cons y ys => exact digits_head hall x (by simpa using hx)
  have hs : Stops isDigit (c :: t') := by simp [Stops, hd]
  simp only [List.append_assoc, doubleSpan, sign_again cs hh, takeWhile_append_stop hall hs,
    dropWhile_append_stop hall hs, fractionSpan_again hf, Option.map_some]

/-- A whole number without a sign is digits, or digits of base sixteen after their mark. -/
theorem unsigned_cases {cs text rest : List Char} (h : unsigned cs = some (text, rest)) :
    run isDigit cs = some (text, rest) ∨
      ∃ tail digits, cs = '0' :: 'x' :: tail ∧ run isHexDigit tail = some (digits, rest) ∧
        text = '0' :: 'x' :: digits := by
  by_cases hc : ∃ r, cs = '0' :: 'x' :: r
  · obtain ⟨tail, rfl⟩ := hc
    simp only [unsigned] at h
    split at h
    · next digits mid hr =>
      cases h
      exact .inr ⟨tail, digits, rfl, hr, rfl⟩
    · exact .inl h
  · rw [unsigned_of_ne fun r he => hc ⟨r, he⟩] at h
    exact .inl h

theorem unsigned_append {cs text rest : List Char}
    (h : unsigned cs = some (text, rest)) : cs = text ++ rest := by
  rcases unsigned_cases h with hr | ⟨tail, digits, rfl, hr, rfl⟩
  · exact run_append hr
  · rw [run_append hr]
    rfl

theorem unsigned_again {cs text rest : List Char}
    (h : unsigned cs = some (text, rest)) : unsigned text = some (text, []) := by
  rcases unsigned_cases h with hr | ⟨tail, digits, rfl, hr, rfl⟩
  · have hd := run_all hr
    rw [unsigned_of_ne, run_self hr]
    rintro r rfl
    have hx := hd 'x' (by simp)
    simp [isDigit] at hx
  · simp only [unsigned, run_self hr]

/-- The digits of a whole number start with one, and only zero and `x` come before others. -/
theorem unsigned_digits {cs text rest : List Char} (h : unsigned cs = some (text, rest)) :
    (text ≠ [] ∧ ∀ c ∈ text, isDigit c = true) ∨ ∃ t, text = '0' :: 'x' :: t := by
  rcases unsigned_cases h with hr | ⟨tail, digits, -, -, rfl⟩
  · exact .inl ⟨(run_eq_some.mp hr).1, run_all hr⟩
  · exact .inr ⟨digits, rfl⟩

theorem unsigned_head {cs text rest : List Char} (h : unsigned cs = some (text, rest)) :
    ∀ c ∈ text.head?, c ≠ '+' ∧ c ≠ '-' := by
  rcases unsigned_digits h with ⟨-, hd⟩ | ⟨t, rfl⟩
  · exact digits_head hd
  · simp

theorem intSpan_append {cs text rest : List Char}
    (h : intSpan cs = some (text, rest)) : cs = text ++ rest := by
  obtain ⟨t, hf, rfl⟩ := intSpan_eq_some.mp h
  have hs := sign_append cs
  rw [unsigned_append hf] at hs
  rw [List.append_assoc, hs]

theorem intSpan_again {cs text rest : List Char}
    (h : intSpan cs = some (text, rest)) : intSpan text = some (text, []) := by
  obtain ⟨t, hf, rfl⟩ := intSpan_eq_some.mp h
  simp only [intSpan, sign_again cs (unsigned_head hf), unsigned_again hf, Option.map_some]

/-- A whole number by itself has neither a point nor an exponent. -/
theorem doubleSpan_of_intSpan {cs text rest : List Char}
    (h : intSpan cs = some (text, rest)) : doubleSpan text = none := by
  obtain ⟨t, hf, rfl⟩ := intSpan_eq_some.mp h
  rw [doubleSpan, sign_again cs (unsigned_head hf)]
  rcases unsigned_digits hf with ⟨hn, hd⟩ | ⟨t, rfl⟩
  · have hw := dropWhile_append_stop hd (stops_nil isDigit)
    rw [List.append_nil] at hw
    simp [hw, fractionSpan, exponent]
  · simp [fractionSpan, exponent, isDigit]

end SchemaGen.Idl
