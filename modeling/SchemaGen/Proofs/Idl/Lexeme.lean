import SchemaGen.Proofs.Idl.Gap

namespace SchemaGen.Idl

/-- A character that ends every name and every number. -/
def separates (c : Char) : Bool := !isNameChar c && c != '+' && c != '-'

/-- The text is empty or goes on with a character outside a class. -/
def Stops (test : Char → Bool) (cs : List Char) : Prop := ∀ c ∈ cs.head?, test c = false

/-- A whole name. -/
def isName : List Char → Bool
  | c :: cs => isNameStart c && cs.all isNameChar
  | [] => false

theorem isNameChar_of_isNameStart {c : Char} (h : isNameStart c = true) : isNameChar c = true := by
  simp only [isNameStart, Bool.or_eq_true] at h
  rcases h with h | h <;> simp [isNameChar, h]

theorem isNameChar_of_isDigit {c : Char} (h : isDigit c = true) : isNameChar c = true := by
  simp [isNameChar, h]

theorem isNameChar_of_isHexDigit {c : Char} (h : isHexDigit c = true) : isNameChar c = true := by
  simp only [isHexDigit, Bool.or_eq_true, Bool.and_eq_true, decide_eq_true_eq] at h
  simp only [isNameChar, isLetter, Bool.or_eq_true, Bool.and_eq_true, decide_eq_true_eq]
  rcases h with (h | h) | h
  · exact .inl (.inl (.inr h))
  · exact .inl (.inl (.inl (.inl ⟨h.1, Char.le_trans h.2 (by decide)⟩)))
  · exact .inl (.inl (.inl (.inr ⟨h.1, Char.le_trans h.2 (by decide)⟩)))

/-- What a separator is not. -/
theorem separates_iff {c : Char} :
    separates c = true ↔ isNameChar c = false ∧ c ≠ '+' ∧ c ≠ '-' := by
  simp [separates, and_assoc]

theorem isNameChar_of_isName {cs : List Char} (h : isName cs = true) :
    ∀ c ∈ cs, isNameChar c = true := by
  match cs with
  | [] => simp
  | c :: cs =>
    rw [isName, Bool.and_eq_true, List.all_eq_true] at h
    intro x hx
    rcases List.mem_cons.mp hx with rfl | hx
    · exact isNameChar_of_isNameStart h.1
    · exact h.2 x hx

theorem not_isDigit_of_separates {c : Char} (h : separates c = true) : isDigit c = false := by
  have hc := (separates_iff.mp h).1
  cases hd : isDigit c with
  | false => rfl
  | true => simp [isNameChar_of_isDigit hd] at hc

theorem not_isHexDigit_of_separates {c : Char} (h : separates c = true) :
    isHexDigit c = false := by
  have hc := (separates_iff.mp h).1
  cases hd : isHexDigit c with
  | false => rfl
  | true => simp [isNameChar_of_isHexDigit hd] at hc

theorem takeWhile_separated {test : Char → Bool} {s : Char} (h : test s = false)
    (cs tail : List Char) : (cs ++ s :: tail).takeWhile test = cs.takeWhile test := by
  induction cs with
  | nil => simp [h]
  | cons c cs ih => cases hc : test c <;> simp [hc, ih]

theorem dropWhile_separated {test : Char → Bool} {s : Char} (h : test s = false)
    (cs tail : List Char) :
    (cs ++ s :: tail).dropWhile test = cs.dropWhile test ++ s :: tail := by
  induction cs with
  | nil => simp [h]
  | cons c cs ih => cases hc : test c <;> simp [hc, ih]

theorem takeWhile_append_stop {test : Char → Bool} {a b : List Char}
    (ha : ∀ c ∈ a, test c = true) (hb : Stops test b) : (a ++ b).takeWhile test = a := by
  rw [List.takeWhile_append_of_pos ha]
  cases b with
  | nil => simp
  | cons c b => simp [hb c (by simp)]

theorem dropWhile_append_stop {test : Char → Bool} {a b : List Char}
    (ha : ∀ c ∈ a, test c = true) (hb : Stops test b) : (a ++ b).dropWhile test = b := by
  rw [List.dropWhile_append_of_pos ha]
  cases b with
  | nil => simp
  | cons c b => simp [hb c (by simp)]

theorem stops_dropWhile (test : Char → Bool) (cs : List Char) : Stops test (cs.dropWhile test) := by
  induction cs with
  | nil => simp [Stops]
  | cons c cs ih => cases hc : test c <;> simp [hc, ih]; simp [Stops, hc]

theorem mem_takeWhile {test : Char → Bool} {cs : List Char} {c : Char}
    (h : c ∈ cs.takeWhile test) : test c = true := by
  induction cs with
  | nil => simp at h
  | cons x cs ih => cases hx : test x <;> simp [hx] at h; grind

theorem dropText?_eq_some {text cs rest : List Char} :
    dropText? text cs = some rest ↔ cs = text ++ rest := by
  induction text generalizing cs with
  | nil => simp [dropText?, eq_comm]
  | cons p ps ih =>
    cases cs with
    | nil => simp [dropText?]
    | cons c cs =>
      by_cases h : p = c
      · simp [dropText?, h, ih]
      · simp [dropText?, h, Ne.symm h]

/-- A literal text takes itself and what is to be skipped after it. -/
theorem token_eq_some {text : String} {cs rest : List Char} {u : Unit} :
    token text cs = some (u, rest) ↔ ∃ after, cs = text.toList ++ after ∧ rest = skip after := by
  unfold token
  constructor
  · intro h
    obtain ⟨after, ha, he⟩ := Option.map_eq_some_iff.mp h
    cases he
    exact ⟨after, dropText?_eq_some.mp ha, rfl⟩
  · rintro ⟨after, ha, rfl⟩
    rw [dropText?_eq_some.mpr ha]
    rfl

theorem run_eq_some {test : Char → Bool} {cs text rest : List Char} :
    run test cs = some (text, rest) ↔
      text ≠ [] ∧ text = cs.takeWhile test ∧ rest = cs.dropWhile test := by
  unfold run
  split
  · next h =>
    constructor
    · intro hn
      cases hn
    · rintro ⟨hn, rfl, -⟩
      exact absurd h hn
  · next h =>
    constructor
    · intro he
      cases he
      exact ⟨h, rfl, rfl⟩
    · rintro ⟨-, rfl, rfl⟩
      rfl

theorem identifier_eq_some {cs rest : List Char} {name : String} :
    identifier cs = some (name, rest) ↔ ∃ after, cs = name.toList ++ after ∧
      isName name.toList = true ∧ Stops isNameChar after ∧ rest = skip after := by
  constructor
  · intro h
    cases cs with
    | nil => simp [identifier] at h
    | cons c cs =>
      simp only [identifier] at h
      split at h
      · next hc =>
        simp only [Option.some.injEq, Prod.mk.injEq] at h
        obtain ⟨rfl, rfl⟩ := h
        have hn := isNameChar_of_isNameStart hc
        refine ⟨(c :: cs).dropWhile isNameChar, ?_, ?_, stops_dropWhile _ _, rfl⟩
        · rw [String.toList_ofList, List.takeWhile_append_dropWhile]
        · rw [String.toList_ofList, List.takeWhile_cons_of_pos hn, isName, hc, Bool.true_and,
            List.all_eq_true]
          intro x hx
          exact mem_takeWhile hx
      · cases h
  · rintro ⟨after, rfl, hn, hs, rfl⟩
    have hall := isNameChar_of_isName hn
    cases hl : name.toList with
    | nil => simp [hl, isName] at hn
    | cons c cs =>
      rw [hl] at hall
      rw [hl, isName, Bool.and_eq_true] at hn
      have ht := takeWhile_append_stop hall hs
      have hd := dropWhile_append_stop hall hs
      rw [List.cons_append] at ht hd ⊢
      rw [identifier, if_pos hn.1, ht, hd, ← hl, String.ofList_toList]

/-- Text as it stands between quote marks: a backslash before each backslash and each mark. -/
def escapeQuoted (mark : Char) : List Char → List Char
  | [] => []
  | c :: cs =>
    if c = '\\' ∨ c = mark then '\\' :: c :: escapeQuoted mark cs else c :: escapeQuoted mark cs

/-- The marks around quoted text. -/
def quoteMarks : List Char := ['"', '\'']

theorem quotedRest_cons {mark c : Char} (rest : List Char) (hc : c ≠ '\\') :
    quotedRest mark (c :: rest) =
      if c = mark then some ([], rest)
      else (quotedRest mark rest).map fun (text, tail) => (c :: text, tail) := by
  rw [quotedRest]
  rintro d r rfl
  exact absurd rfl hc

theorem quotedRest_append {mark : Char} (hm : mark ∈ quoteMarks) {cs text after : List Char}
    (tail : List Char) (h : quotedRest mark cs = some (text, after)) :
    quotedRest mark (cs ++ tail) = some (text, after ++ tail) := by
  fun_induction quotedRest mark cs generalizing text after with
  | case1 => cases h
  | case2 c rest ih =>
    obtain ⟨⟨t, a⟩, hr, he⟩ := Option.map_eq_some_iff.mp h
    cases he
    simp [quotedRest, ih hr]
  | case3 rest hne =>
    cases h
    have hb : mark ≠ '\\' := by
      rintro rfl
      simp [quoteMarks] at hm
    rw [List.cons_append, quotedRest_cons _ hb, if_pos rfl]
  | case4 c rest hne hc ih =>
    obtain ⟨⟨t, a⟩, hr, he⟩ := Option.map_eq_some_iff.mp h
    cases he
    by_cases hb : c = '\\'
    · cases rest with
      | nil => simp [quotedRest] at hr
      | cons d rest => exact absurd rfl (hne d rest hb)
    · rw [List.cons_append, quotedRest_cons _ hb, if_neg hc, ih hr]
      rfl

theorem quotedRest_length {mark : Char} {cs text after : List Char}
    (h : quotedRest mark cs = some (text, after)) : after.length < cs.length := by
  fun_induction quotedRest mark cs generalizing text after with
  | case1 => cases h
  | case2 c rest ih =>
    obtain ⟨⟨t, a⟩, hr, he⟩ := Option.map_eq_some_iff.mp h
    cases he
    have hl := ih hr
    simp only [List.length_cons]
    omega
  | case3 rest hne =>
    cases h
    simp
  | case4 c rest hne hc ih =>
    obtain ⟨⟨t, a⟩, hr, he⟩ := Option.map_eq_some_iff.mp h
    cases he
    have hl := ih hr
    simp only [List.length_cons]
    omega

/-- Between its marks an escaped text reads as itself. -/
theorem quotedRest_escape {mark : Char} (hm : mark ∈ quoteMarks) (text after : List Char) :
    quotedRest mark (escapeQuoted mark text ++ mark :: after) = some (text, after) := by
  have hb : mark ≠ '\\' ∧ unescape mark = mark := by
    simp only [quoteMarks, List.mem_cons, List.not_mem_nil, or_false] at hm
    rcases hm with rfl | rfl <;> decide
  induction text with
  | nil => rw [escapeQuoted, List.nil_append, quotedRest_cons _ hb.1, if_pos rfl]
  | cons c cs ih =>
    rw [escapeQuoted]
    split
    · next hc =>
      have hu : unescape c = c := by
        rcases hc with rfl | rfl
        · decide
        · exact hb.2
      simp [quotedRest, ih, hu]
    · next hc =>
      rw [not_or] at hc
      rw [List.cons_append, quotedRest_cons _ hc.1, if_neg hc.2, ih]
      rfl

end SchemaGen.Idl
