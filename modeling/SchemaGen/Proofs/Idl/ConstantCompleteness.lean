import SchemaGen.Proofs.Idl.TypeCompleteness

namespace SchemaGen.Idl

open Reader

theorem startsNumber_of_isNameStart {c : Char} (h : isNameStart c = true) :
    startsNumber c = false := by
  cases hn : startsNumber c with
  | false => rfl
  | true =>
    simp only [startsNumber, Bool.or_eq_true, beq_iff_eq, isDigit, Bool.and_eq_true,
      decide_eq_true_eq] at hn
    simp only [isNameStart, isLetter, Bool.or_eq_true, Bool.and_eq_true, decide_eq_true_eq,
      beq_iff_eq] at h
    rcases hn with ((hd | rfl) | rfl) | rfl
    · rcases h with (h | h) | rfl
      · exact absurd (Char.le_trans h.1 hd.2) (by decide)
      · exact absurd (Char.le_trans h.1 hd.2) (by decide)
      · exact absurd hd.2 (by decide)
    all_goals
      revert h
      decide

/-- Where no number can start none is read. -/
theorem spans_of_front {t : Token} (h : ∀ c, t.mayStart c = true → startsNumber c = false)
    {us : List Token} {cs : List Char} (run : Run cs (t :: us) []) :
    intSpan cs = none ∧ doubleSpan cs = none := by
  obtain ⟨after, ht, -⟩ := run.cons_inv
  obtain ⟨c, tail, rfl, hc, -⟩ := ht.start
  apply spans_of_not_startsNumber
  rintro d hd
  cases hd
  exact h c hc

theorem refuses_double_front {t : Token} (h : ∀ c, t.mayStart c = true → startsNumber c = false)
    (us : List Token) : Refuses double (t :: us) :=
  fun _ run => double_eq_none.mpr (spans_of_front h run).2

theorem refuses_int_front {t : Token} (h : ∀ c, t.mayStart c = true → startsNumber c = false)
    (us : List Token) : Refuses int (t :: us) := by
  intro cs run
  rw [int_eq, (spans_of_front h run).1]
  rfl

/-- Where no number can start, a choice after those of numbers is read. -/
theorem reads_past_numbers {t : Token} {p : Reader ConstExpr} {e : ConstExpr} {us more : List Token}
    (h : ∀ c, t.mayStart c = true → startsNumber c = false) (hp : Reads p e (t :: us) more) :
    Reads (either (ConstExpr.double <$> double) (either (ConstExpr.int <$> int) p)) e (t :: us)
      more :=
  .right ((refuses_double_front h us).map _) (.right ((refuses_int_front h us).map _) hp)

theorem not_startsNumber_mark {text : String} {c : Char} (hc : text.toList.head? = some c)
    (h : startsNumber c = false) :
    ∀ d, (Token.mark text).mayStart d = true → startsNumber d = false := by
  intro d hd
  simp only [Token.mayStart, hc, beq_iff_eq, Option.some.injEq] at hd
  rw [← hd]
  exact h

theorem not_startsNumber_name (n : String) :
    ∀ d, (Token.name n).mayStart d = true → startsNumber d = false :=
  fun _ hd => startsNumber_of_isNameStart hd

theorem not_startsNumber_quoted (text : String) :
    ∀ d, (Token.quoted text).mayStart d = true → startsNumber d = false := by
  intro d hd
  simp only [Token.mayStart, quoteMarks, List.contains_eq_mem, List.mem_cons, List.not_mem_nil,
    or_false, decide_eq_true_eq] at hd
  rcases hd with rfl | rfl <;> decide

theorem refuses_word {text : String} {c : Char} {ts : List Token}
    (ht : text.toList.head? = some c) (h : avoids c ts = true) : Refuses (word text) ts := by
  intro cs run
  unfold word
  split
  · next hw =>
    exfalso
    match cs with
    | [] =>
      rw [← hw] at ht
      simp at ht
    | d :: cs =>
      rw [← hw, List.takeWhile_cons] at ht
      split at ht
      · cases ht
        exact run.ne_cons h cs rfl
      · cases ht
  · rfl

theorem refuses_word_name {text n : String} (h : n ≠ text) (more : List Token) :
    Refuses (word text) (.name n :: more) := by
  intro cs run
  rw [word, if_neg]
  rw [takeWhile_name run]
  intro he
  exact h (String.toList_inj.mp he)

theorem refuses_quoted {ts : List Token} (hd : avoids '"' ts = true)
    (hs : avoids '\'' ts = true) : Refuses quoted ts := by
  intro cs run
  apply quoted_of_ne
  intro c hc
  simp only [quoteMarks, List.mem_cons, List.not_mem_nil, or_false] at hc
  rcases hc with rfl | rfl
  · exact run.ne_cons hd
  · exact run.ne_cons hs

theorem truth_reads (b : Bool) (more : List Token) :
    Reads truth b (.name (truthWord b) :: more) more := by
  cases b with
  | true => exact Reads.left (reads_word (by decide) more).last
  | false =>
    apply Reads.right ((refuses_word_name (by decide) more).bind _)
    exact (reads_word (by decide) more).last

theorem refuses_truth {ts : List Token} (ht : avoids 't' ts = true) (hf : avoids 'f' ts = true) :
    Refuses truth ts := ((refuses_word rfl ht).bind _).either ((refuses_word rfl hf).bind _)

theorem Items.mono {α : Type} {P Q : α → List Token → Prop} {as : List α} {ts : List Token}
    (h : Items P as ts) (hpq : ∀ ⦃a us⦄, us.length ≤ ts.length → P a us → Q a us) :
    Items Q as ts := by
  induction h with
  | nil => exact .nil
  | cons ha hs _ ih =>
    refine .cons (hpq ?_ ha) hs (ih fun a us hl hp => hpq ?_ hp)
    all_goals
      simp only [List.length_append]
      omega

theorem Entry.mono {α : Type} {P Q : α → List Token → Prop} {e : α × α} {ts : List Token}
    (h : Entry P e ts) (hpq : ∀ ⦃a us⦄, us.length ≤ ts.length → P a us → Q a us) :
    Entry Q e ts := by
  cases h with
  | mk hk hv =>
    refine .mk (hpq ?_ hk) (hpq ?_ hv)
    all_goals
      simp only [List.length_append, List.length_cons]
      omega

theorem ConstExpr.Spells.front {e : ConstExpr} {ts : List Token} (h : e.Spells ts) :
    ∃ t us, ts = t :: us ∧ avoids ',' [t] = true ∧ avoids ';' [t] = true := by
  cases h with
  | bool | int | double | string | identifier => exact ⟨_, _, rfl, rfl, rfl⟩
  | list h => exact ⟨_, _, rfl, rfl, rfl⟩
  | map h => exact ⟨_, _, rfl, rfl, rfl⟩

/-- What may follow a separator that is left out. -/
def NoSeparator (us : List Token) : Prop := avoids ',' us = true ∧ avoids ';' us = true

/-- Parts that each are read whatever follows. -/
theorem constant_repeats {α : Type} {p : Reader α} {P : α → List Token → Prop}
    (hp : ∀ ⦃a ts⦄ (us : List Token), P a ts → Reads p a (ts ++ us) us)
    (hf : ∀ ⦃a ts⦄, P a ts → ∃ t us, ts = t :: us ∧ NoSeparator [t]) :
    Repeats (do let a ← p; separator; pure a) (Ended P) NoSeparator := by
  apply Repeats.ended (G := fun _ => True)
  · intro a ts us ha _
    exact hp us ha
  · intro sep us _ _
    trivial
  · intro us hus
    exact hus
  · intro a ts us ha _
    obtain ⟨t, vs, rfl, ht⟩ := hf ha
    exact ht
  · intro a ts ha
    obtain ⟨t, vs, rfl, -⟩ := hf ha
    exact List.cons_ne_nil _ _

theorem constEntry_reads {p : Reader ConstExpr} {P : ConstExpr → List Token → Prop}
    (hp : ∀ ⦃e ts⦄ (us : List Token), P e ts → Reads p e (ts ++ us) us)
    {e : ConstExpr × ConstExpr}
    {ts : List Token} (us : List Token) (h : Entry P e ts) :
    Reads (constEntry p) e (ts ++ us) us := by
  cases h with
  | mk hk hv =>
    rw [List.append_assoc]
    exact (hp _ hk).bind ((reads_token (by decide) _).bind (hp us hv).last)

/-- No constant starts with a closing bracket. -/
theorem refuses_const {text : String} (h : text = "]" ∨ text = "\x7d") (depth : Nat)
    (us : List Token) : Refuses (constUpTo depth) (.mark text :: us) := by
  cases depth with
  | zero => exact fun _ _ => rfl
  | succ depth =>
    rcases h with rfl | rfl
    all_goals
      refine .either ?_ (.either ?_ (.either ?_ (.either ?_ (.either ?_ (.either ?_ ?_)))))
      · exact .map (refuses_double_front (not_startsNumber_mark rfl rfl) us) _
      · exact .map (refuses_int_front (not_startsNumber_mark rfl rfl) us) _
      · exact (refuses_truth rfl rfl).map _
      · exact (refuses_quoted rfl rfl).map _
      · exact (refuses_token rfl rfl).bind _
      · exact (refuses_token rfl rfl).bind _
      · exact (refuses_identifier rfl (by decide) us).map _

/-- A constant spelled by so many tokens at most. -/
def SpellsWithin (depth : Nat) (e : ConstExpr) (ts : List Token) : Prop :=
  e.Spells ts ∧ ts.length ≤ depth

section Depth

variable {depth : Nat}
  (hp : ∀ ⦃e ts⦄ (us : List Token), SpellsWithin depth e ts →
    Reads (constUpTo depth) e (ts ++ us) us)

include hp

theorem list_reads {items : List ConstExpr} {us : List Token} (more : List Token)
    (h : Items ConstExpr.Spells items us) (hl : us.length ≤ depth) :
    Reads
      (do
        token "["
        let items ← many do
          let item ← constUpTo depth
          separator
          pure item
        token "]"
        pure (ConstExpr.list items))
      (.list items) (.mark "[" :: (us ++ [.mark "]"]) ++ more) more := by
  have hi : Items (SpellsWithin depth) items us :=
    h.mono fun e ts hle he => ⟨he, Nat.le_trans hle hl⟩
  exact (constant_repeats hp fun e ts he => he.1.front).enclosed (by decide) (by decide)
    ⟨us, hi, rfl⟩ ⟨rfl, rfl⟩ ((refuses_const (.inl rfl) depth _).bind _)
    fun _ run => ⟨_, rfl, run⟩

theorem map_reads {entries : List (ConstExpr × ConstExpr)} {us : List Token} (more : List Token)
    (h : Items (Entry ConstExpr.Spells) entries us) (hl : us.length ≤ depth) :
    Reads
      (do
        token "\x7b"
        let entries ← many do
          let entry ← constEntry (constUpTo depth)
          separator
          pure entry
        token "\x7d"
        pure (ConstExpr.map entries))
      (.map entries) (.mark "\x7b" :: (us ++ [.mark "\x7d"]) ++ more) more := by
  have hi : Items (Entry (SpellsWithin depth)) entries us :=
    h.mono fun e ts hle he => he.mono fun k ks hk hs => ⟨hs, Nat.le_trans hk (Nat.le_trans hle hl)⟩
  have front ⦃e : ConstExpr × ConstExpr⦄ ⦃ts : List Token⦄
      (he : Entry (SpellsWithin depth) e ts) : ∃ t us, ts = t :: us ∧ NoSeparator [t] := by
    cases he with
    | mk hk hv =>
      obtain ⟨t, us, rfl, ht⟩ := hk.1.front
      exact ⟨t, _, rfl, ht⟩
  have hr := constant_repeats (fun e ts us => constEntry_reads hp us) front
  exact hr.enclosed (by decide) (by decide) ⟨us, hi, rfl⟩ ⟨rfl, rfl⟩
    (((refuses_const (.inr rfl) depth _).bind _).bind _) fun _ run => ⟨_, rfl, run⟩

end Depth

theorem constUpTo_reads {depth : Nat} {e : ConstExpr} {ts : List Token} (more : List Token)
    (h : e.Spells ts) (hl : ts.length ≤ depth) : Reads (constUpTo depth) e (ts ++ more) more := by
  induction depth generalizing e ts more with
  | zero =>
    obtain ⟨_, _, rfl, -⟩ := h.front
    simp at hl
  | succ depth ih =>
    have hp : ∀ ⦃e ts⦄ (us : List Token), SpellsWithin depth e ts →
        Reads (constUpTo depth) e (ts ++ us) us := fun e ts us he => ih us he.1 he.2
    cases h with
    | double text => exact Reads.left ((reads_double text more).map _)
    | int text =>
      apply Reads.right ((refuses_double text more).map _)
      exact Reads.left ((reads_int text more).map _)
    | bool b =>
      apply reads_past_numbers (not_startsNumber_name _)
      exact Reads.left ((truth_reads b more).map _)
    | string text =>
      apply reads_past_numbers (not_startsNumber_quoted text)
      apply Reads.right ((refuses_truth rfl rfl).map _)
      exact Reads.left ((reads_quoted text more).map _)
    | list h =>
      simp only [List.length_cons, List.length_append] at hl
      apply reads_past_numbers (not_startsNumber_mark rfl rfl)
      apply Reads.right ((refuses_truth rfl rfl).map _)
      apply Reads.right ((refuses_quoted rfl rfl).map _)
      exact Reads.left (list_reads hp more h (by omega))
    | map h =>
      simp only [List.length_cons, List.length_append] at hl
      apply reads_past_numbers (not_startsNumber_mark rfl rfl)
      apply Reads.right ((refuses_truth rfl rfl).map _)
      apply Reads.right ((refuses_quoted rfl rfl).map _)
      apply Reads.right ((refuses_token rfl rfl).bind _)
      exact Reads.left (map_reads hp more h (by omega))
    | identifier h =>
      apply reads_past_numbers (not_startsNumber_name _)
      apply Reads.right
      · apply Refuses.map
        exact ((refuses_word_name (h true) more).bind _).either
          ((refuses_word_name (h false) more).bind _)
      apply Reads.right ((refuses_quoted rfl rfl).map _)
      apply Reads.right ((refuses_token rfl rfl).bind _)
      apply Reads.right ((refuses_token rfl rfl).bind _)
      exact (reads_identifier _ more).map _

theorem constValue_reads {e : ConstExpr} {ts : List Token} (more : List Token)
    (h : e.Spells ts) : Reads constValue e (ts ++ more) more := by
  intro cs run
  have hl := run.length
  rw [List.length_append] at hl
  exact constUpTo_reads more h (by omega) run

end SchemaGen.Idl
