import SchemaGen.Proofs.Idl.NumberLexeme

namespace SchemaGen.Idl

inductive Token where
  /-- A keyword or a punctuation mark, which nothing has to separate from what follows. -/
  | mark (text : String)
  | name (text : String)
  /-- The number of a field or of an enum member. -/
  | index (text : String)
  /-- A whole number as a constant. -/
  | int (text : String)
  | double (text : String)
  | quoted (text : String)
  deriving DecidableEq, Repr

/-- A literal text that no gap starts like. -/
def isMark : List Char → Bool
  | c :: _ => !gapOpeners.contains c
  | [] => false

/-- A character that a number may start with. -/
def startsNumber (c : Char) : Bool := isDigit c || c == '+' || c == '-' || c == '.'

namespace Token

/-- The token is what a text starts with, and the text goes on right after it. -/
def Takes : Token → List Char → List Char → Prop
  | mark text, cs, after => isMark text.toList = true ∧ cs = text.toList ++ after
  | name text, cs, after =>
    isName text.toList = true ∧ Stops isNameChar after ∧ cs = text.toList ++ after
  | index text, cs, after => intSpan cs = some (text.toList, after)
  | int text, cs, after => doubleSpan cs = none ∧ intSpan cs = some (text.toList, after)
  | double text, cs, after => doubleSpan cs = some (text.toList, after)
  | quoted text, cs, after => ∃ q ∈ quoteMarks, ∃ rest, cs = q :: rest ∧
    quotedRest q rest = some (text.toList, after)

/-- The characters that a token may start with. -/
def mayStart (c : Char) : Token → Bool
  | mark text => text.toList.head? == some c
  | name _ => isNameStart c
  | index _ | int _ | double _ => startsNumber c
  | quoted _ => quoteMarks.contains c

end Token

/-- A text runs through tokens, up to a rest. -/
inductive Run : List Char → List Token → List Char → Prop where
  | nil (cs : List Char) : Run cs [] cs
  | cons {cs after rest : List Char} {t : Token} {ts : List Token} (h : t.Takes cs after)
      (hr : Run (skip after) ts rest) : Run cs (t :: ts) rest

theorem Run.append {cs mid rest : List Char} {ts us : List Token} (h : Run cs ts mid)
    (hu : Run mid us rest) : Run cs (ts ++ us) rest := by
  induction h with
  | nil => exact hu
  | cons ht _ ih => exact .cons ht (ih hu)

theorem Run.single {cs after : List Char} {t : Token} (h : t.Takes cs after) :
    Run cs [t] (skip after) := .cons h (.nil _)

theorem token_eq_some_takes {text : String} (hm : isMark text.toList = true) {cs rest : List Char}
    {u : Unit} : token text cs = some (u, rest) ↔
      ∃ after, (Token.mark text).Takes cs after ∧ rest = skip after := by
  simp only [token_eq_some, Token.Takes, hm, true_and]

theorem identifier_eq_some_takes {cs rest : List Char} {name : String} :
    identifier cs = some (name, rest) ↔
      ∃ after, (Token.name name).Takes cs after ∧ rest = skip after := by
  rw [identifier_eq_some]
  constructor
  · rintro ⟨after, hc, hn, hs, hr⟩
    exact ⟨after, ⟨hn, hs, hc⟩, hr⟩
  · rintro ⟨after, ⟨hn, hs, hc⟩, hr⟩
    exact ⟨after, hc, hn, hs, hr⟩

theorem map_span_eq_some {o : Option (List Char × List Char)} {text : String}
    {rest : List Char} :
    o.map (fun (t, r) => (String.ofList t, skip r)) = some (text, rest) ↔
      ∃ after, o = some (text.toList, after) ∧ rest = skip after := by
  simp only [Option.map_eq_some_iff, Prod.mk.injEq, Prod.exists]
  constructor
  · rintro ⟨t, after, ho, rfl, rfl⟩
    exact ⟨after, by rw [ho, String.toList_ofList], rfl⟩
  · rintro ⟨after, ho, rfl⟩
    exact ⟨_, after, ho, String.ofList_toList, rfl⟩

theorem int_eq_some_takes {cs rest : List Char} {text : String} :
    int cs = some (text, rest) ↔
      ∃ after, (Token.index text).Takes cs after ∧ rest = skip after := by
  rw [int_eq, map_span_eq_some]
  rfl

theorem double_eq_some_takes {cs rest : List Char} {text : String} :
    double cs = some (text, rest) ↔
      ∃ after, (Token.double text).Takes cs after ∧ rest = skip after := by
  rw [double_eq, map_span_eq_some]
  rfl

theorem double_eq_none {cs : List Char} : double cs = none ↔ doubleSpan cs = none := by
  rw [double_eq, Option.map_eq_none_iff]

theorem quoted_eq_some_takes {cs rest : List Char} {text : String} :
    quoted cs = some (text, rest) ↔
      ∃ after, (Token.quoted text).Takes cs after ∧ rest = skip after := by
  have hq (q : Char) (body : List Char) :
      (quotedRest q body).map (fun (t, r) => (String.ofList t, skip r)) = some (text, rest) ↔
        ∃ after, quotedRest q body = some (text.toList, after) ∧ rest = skip after :=
    map_span_eq_some
  constructor
  · intro h
    unfold quoted at h
    split at h
    · next body =>
      obtain ⟨after, hb, hr⟩ := (hq '"' body).mp h
      exact ⟨after, ⟨'"', by simp [quoteMarks], body, rfl, hb⟩, hr⟩
    · next body =>
      obtain ⟨after, hb, hr⟩ := (hq '\'' body).mp h
      exact ⟨after, ⟨'\'', by simp [quoteMarks], body, rfl, hb⟩, hr⟩
    · cases h
  · rintro ⟨after, ⟨q, hm, body, rfl, hb⟩, hr⟩
    have hs := (hq q body).mpr ⟨after, hb, hr⟩
    simp only [quoteMarks, List.mem_cons, List.not_mem_nil, or_false] at hm
    rcases hm with rfl | rfl <;> exact hs

/-- A text that starts like no number holds none. -/
theorem spans_of_not_startsNumber {cs : List Char}
    (h : ∀ c ∈ cs.head?, startsNumber c = false) :
    intSpan cs = none ∧ doubleSpan cs = none := by
  match cs with
  | [] => exact ⟨rfl, rfl⟩
  | c :: cs =>
    have hc := h c rfl
    simp only [startsNumber, Bool.or_eq_false_iff, beq_eq_false_iff_ne] at hc
    obtain ⟨⟨⟨hd, hp⟩, hm⟩, hdot⟩ := hc
    have hs : sign (c :: cs) = ([], c :: cs) := by simp [sign, hp, hm]
    have hz : ∀ r, c :: cs ≠ '0' :: 'x' :: r := by
      rintro r he
      cases he
      simp [isDigit] at hd
    constructor
    · simp only [intSpan, hs, unsigned_of_ne hz]
      simp [run, hd]
    · simp only [doubleSpan, hs, List.takeWhile_cons, List.dropWhile_cons, hd]
      rw [if_neg (by simp), if_neg (by simp), fractionSpan_of_ne (by simp [hdot])]
      rfl

theorem not_mem_gapOpeners_of_isNameStart {c : Char} (h : isNameStart c = true) :
    c ∉ gapOpeners := by
  intro hc
  simp only [gapOpeners, List.mem_cons, List.not_mem_nil, or_false] at hc
  rcases hc with rfl | rfl | rfl | rfl | rfl | rfl <;> simp [isNameStart, isLetter] at h

theorem not_mem_gapOpeners_of_startsNumber {c : Char} (h : startsNumber c = true) :
    c ∉ gapOpeners := by
  intro hc
  simp only [gapOpeners, List.mem_cons, List.not_mem_nil, or_false] at hc
  rcases hc with rfl | rfl | rfl | rfl | rfl | rfl <;> simp [startsNumber, isDigit] at h

private theorem number_start {cs : List Char}
    (h : ¬ (intSpan cs = none ∧ doubleSpan cs = none)) :
    ∃ c tail, cs = c :: tail ∧ startsNumber c = true ∧ c ∉ gapOpeners := by
  match cs with
  | [] => exact absurd ⟨rfl, rfl⟩ h
  | c :: cs =>
    cases hc : startsNumber c with
    | true => exact ⟨c, cs, rfl, hc, not_mem_gapOpeners_of_startsNumber hc⟩
    | false => exact absurd (spans_of_not_startsNumber (by simp [hc])) h

namespace Token

/-- A token starts with a character of its own and with no gap. -/
theorem Takes.start {t : Token} {cs after : List Char} (h : t.Takes cs after) :
    ∃ c tail, cs = c :: tail ∧ t.mayStart c = true ∧ c ∉ gapOpeners := by
  cases t with
  | mark text =>
    obtain ⟨hm, rfl⟩ := h
    match hl : text.toList with
    | [] => simp [hl, isMark] at hm
    | c :: cs =>
      rw [hl] at hm
      exact ⟨c, cs ++ after, rfl, by simp [mayStart, hl], by simpa [isMark] using hm⟩
  | name text =>
    obtain ⟨hn, -, rfl⟩ := h
    match hl : text.toList with
    | [] => simp [hl, isName] at hn
    | c :: cs =>
      rw [hl, isName, Bool.and_eq_true] at hn
      exact ⟨c, cs ++ after, rfl, hn.1, not_mem_gapOpeners_of_isNameStart hn.1⟩
  | index text =>
    simp only [Takes] at h
    exact number_start (by simp [h])
  | int text =>
    simp only [Takes] at h
    exact number_start (by simp [h.2])
  | double text =>
    simp only [Takes] at h
    exact number_start (by simp [h])
  | quoted text =>
    obtain ⟨q, hq, body, rfl, -⟩ := h
    refine ⟨q, body, rfl, by simpa [mayStart] using hq, ?_⟩
    simp only [quoteMarks, List.mem_cons, List.not_mem_nil, or_false] at hq
    rcases hq with rfl | rfl <;> decide

theorem Takes.length {t : Token} {cs after : List Char} (h : t.Takes cs after) :
    after.length < cs.length := by
  have number {text : List Char} (ha : cs = text ++ after)
      (hn : ¬ (intSpan text = none ∧ doubleSpan text = none)) : after.length < cs.length := by
    obtain ⟨c, tail, rfl, -⟩ := number_start hn
    rw [ha, List.length_append, List.length_cons]
    omega
  have shorter {text : List Char} (ha : cs = text ++ after) (hn : text ≠ []) :
      after.length < cs.length := by
    have hl := List.length_pos_iff.mpr hn
    rw [ha, List.length_append]
    omega
  cases t with
  | mark text =>
    obtain ⟨hm, ha⟩ := h
    exact shorter ha (by rintro hn; simp [hn, isMark] at hm)
  | name text =>
    obtain ⟨hn, -, ha⟩ := h
    exact shorter ha (by rintro he; simp [he, isName] at hn)
  | index text => exact number (intSpan_append h) (by simp [intSpan_again h])
  | int text => exact number (intSpan_append h.2) (by simp [intSpan_again h.2])
  | double text => exact number (doubleSpan_append h) (by simp [doubleSpan_again h])
  | quoted text =>
    obtain ⟨q, -, body, rfl, hb⟩ := h
    have hl := quotedRest_length hb
    rw [List.length_cons]
    omega

theorem stops_separated {test : Char → Bool} {s : Char} (ht : test s = false)
    {after : List Char} (h : Stops test after) (tail : List Char) :
    Stops test (after ++ s :: tail) := by
  cases after with
  | nil => simpa [Stops] using ht
  | cons c after => simpa [Stops] using h

/-- What a token takes does not depend on what stands after a separator. -/
theorem Takes.separated {t : Token} {cs after : List Char} (h : t.Takes cs after) {s : Char}
    (hs : separates s = true) (tail : List Char) :
    t.Takes (cs ++ s :: tail) (after ++ s :: tail) := by
  cases t with
  | mark text =>
    obtain ⟨hm, rfl⟩ := h
    exact ⟨hm, List.append_assoc _ _ _⟩
  | name text =>
    obtain ⟨hn, hst, rfl⟩ := h
    exact ⟨hn, stops_separated (separates_iff.mp hs).1 hst tail, List.append_assoc _ _ _⟩
  | index text =>
    simp only [Takes] at h ⊢
    rw [intSpan_separated hs, h, Option.map_some]
  | int text =>
    simp only [Takes] at h ⊢
    rw [intSpan_separated hs, doubleSpan_separated hs, h.1, h.2, Option.map_some]
    exact ⟨rfl, rfl⟩
  | double text =>
    simp only [Takes] at h ⊢
    rw [doubleSpan_separated hs, h, Option.map_some]
  | quoted text =>
    obtain ⟨q, hq, body, rfl, hb⟩ := h
    exact ⟨q, hq, body ++ s :: tail, rfl, quotedRest_append hq _ hb⟩

end Token

theorem Run.length {cs rest : List Char} {ts : List Token} (h : Run cs ts rest) :
    rest.length + ts.length ≤ cs.length := by
  induction h with
  | nil => simp
  | @cons cs after rest t ts ht _ ih =>
    have hl := ht.length
    have hs := skip_length_le after
    rw [List.length_cons]
    omega

theorem Run.eq_of_nil {cs rest : List Char} (h : Run cs [] rest) : cs = rest := by
  cases h
  rfl

theorem Run.cons_inv {cs rest : List Char} {t : Token} {ts : List Token}
    (h : Run cs (t :: ts) rest) : ∃ after, t.Takes cs after ∧ Run (skip after) ts rest := by
  cases h with
  | cons ht hr => exact ⟨_, ht, hr⟩

/-- A line break joins two texts that run through tokens. -/
theorem Run.newline {cs tail : List Char} {ts us : List Token} (h : Run (skip cs) ts [])
    (hu : Run (skip tail) us []) : Run (skip (cs ++ '\n' :: tail)) (ts ++ us) [] := by
  induction ts generalizing cs with
  | nil =>
    rw [skip_append_newline tail h.eq_of_nil]
    exact hu
  | cons t ts ih =>
    obtain ⟨after, ht, hr⟩ := h.cons_inv
    obtain ⟨c, front, hf, -, hc⟩ := ht.start
    have hslash : c ≠ '/' := by
      rintro rfl
      simp [gapOpeners] at hc
    rw [skip_append _ hf hslash, ← List.cons_append, ← hf]
    exact .cons (ht.separated (by decide) tail) (ih hr)

end SchemaGen.Idl
