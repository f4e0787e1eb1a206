import SchemaGen.Proofs.Idl.Soundness

namespace SchemaGen.Idl

open Reader

variable {α β : Type}

/-- On a text of some tokens the reader finds a value and leaves the tokens after it. -/
def Reads (p : Reader α) (a : α) (ts more : List Token) : Prop :=
  ∀ ⦃cs⦄, Run cs ts [] → ∃ mid, p cs = some (a, mid) ∧ Run mid more []

/-- The reader fails on a text of these tokens. -/
def Refuses (p : Reader α) (ts : List Token) : Prop := ∀ ⦃cs⦄, Run cs ts [] → p cs = none

theorem Reads.bind {p : Reader α} {f : α → Reader β} {a : α} {b : β} {ts us more : List Token}
    (hp : Reads p a ts us) (hf : Reads (f a) b us more) : Reads (p >>= f) b ts more := by
  intro cs run
  obtain ⟨mid, ha, hm⟩ := hp run
  obtain ⟨rest, hb, hr⟩ := hf hm
  exact ⟨rest, by rw [bind_of_some ha, hb], hr⟩

/-- The last step of a reader. -/
theorem Reads.last {p : Reader α} {f : α → β} {a : α} {ts more : List Token}
    (hp : Reads p a ts more) : Reads (p >>= fun a => Pure.pure (f a)) (f a) ts more := by
  intro cs run
  obtain ⟨mid, ha, hm⟩ := hp run
  exact ⟨mid, by rw [bind_of_some ha]; rfl, hm⟩

theorem Reads.map {p : Reader α} {a : α} {ts more : List Token} (f : α → β)
    (hp : Reads p a ts more) : Reads (f <$> p) (f a) ts more := by
  intro cs run
  obtain ⟨mid, ha, hm⟩ := hp run
  exact ⟨mid, by rw [map_apply, ha]; rfl, hm⟩

theorem Reads.left {p q : Reader α} {a : α} {ts more : List Token} (hp : Reads p a ts more) :
    Reads (either p q) a ts more := by
  intro cs run
  obtain ⟨mid, ha, hm⟩ := hp run
  exact ⟨mid, either_of_some ha, hm⟩

theorem Reads.right {p q : Reader α} {a : α} {ts more : List Token}
    (hp : Refuses p ts) (hq : Reads q a ts more) : Reads (either p q) a ts more := by
  intro cs run
  obtain ⟨mid, ha, hm⟩ := hq run
  exact ⟨mid, by rw [either_of_none (hp run), ha], hm⟩

theorem Refuses.bind {p : Reader α} {ts : List Token} (h : Refuses p ts) (f : α → Reader β) :
    Refuses (p >>= f) ts := fun _ run => bind_of_none (h run)

theorem Refuses.map {p : Reader α} {ts : List Token} (h : Refuses p ts) (f : α → β) :
    Refuses (f <$> p) ts := fun _ run => map_eq_none.mpr (h run)

theorem Refuses.either {p q : Reader α} {ts : List Token} (hp : Refuses p ts)
    (hq : Refuses q ts) : Refuses (either p q) ts :=
  fun _ run => either_eq_none.mpr ⟨hp run, hq run⟩

/-- A part that may be left out is read if nothing that follows looks like it. -/
theorem Reads.perhaps {p : Reader α} {P : α → List Token → Prop} {o : Option α}
    {ts more : List Token} (h : Perhaps P o ts)
    (hp : ∀ ⦃a ts⦄, P a ts → Reads p a (ts ++ more) more) (hn : Refuses p more) :
    Reads (maybe p) o (ts ++ more) more := by
  intro cs run
  cases h with
  | absent => exact ⟨cs, maybe_of_none (hn run), run⟩
  | present h =>
    obtain ⟨mid, ha, hm⟩ := hp h run
    exact ⟨mid, maybe_of_some ha, hm⟩

/-- A reader of parts in a row: how it reads one of them before a follower, and that the part
with its follower may follow a part. -/
structure Repeats (p : Reader α) (P : α → List Token → Prop) (F : List Token → Prop) : Prop where
  reads : ∀ ⦃a ts us⦄, P a ts → F us → Reads p a (ts ++ us) us
  next : ∀ ⦃a ts us⦄, P a ts → F us → F (ts ++ us)
  nonempty : ∀ ⦃a ts⦄, P a ts → ts ≠ []

theorem Row.length_le {P : α → List Token → Prop} (hne : ∀ ⦃a ts⦄, P a ts → ts ≠ [])
    {as : List α} {ts : List Token} (h : Row P as ts) : as.length ≤ ts.length := by
  induction h with
  | nil => exact Nat.le_refl _
  | cons ha _ ih =>
    have hl := List.length_pos_iff.mpr (hne ha)
    rw [List.length_cons, List.length_append]
    omega

namespace Repeats

variable {p : Reader α} {P : α → List Token → Prop} {F : List Token → Prop}

theorem follow (h : Repeats p P F) {as : List α} {ts more : List Token} (row : Row P as ts)
    (hm : F more) : F (ts ++ more) := by
  induction row with
  | nil => exact hm
  | cons ha _ ih =>
    rw [List.append_assoc]
    exact h.next ha ih

theorem manyUpTo (h : Repeats p P F) {as : List α} {ts more : List Token} (row : Row P as ts)
    (hm : F more) (hn : Refuses p more) {n : Nat} (hl : as.length ≤ n) :
    Reads (manyUpTo p n) as (ts ++ more) more := by
  induction row generalizing n with
  | nil =>
    intro cs run
    exact ⟨cs, manyUpTo_of_none (hn run) n, run⟩
  | @cons a as ts us ha row ih =>
    cases n with
    | zero => simp at hl
    | succ n =>
      intro cs run
      rw [List.append_assoc] at run
      obtain ⟨mid, hp, hr⟩ := h.reads ha (h.follow row hm) run
      obtain ⟨rest, ht, hr⟩ := ih (Nat.le_of_succ_le_succ hl) hr
      exact ⟨rest, manyUpTo_of_some hp ht, hr⟩

theorem many (h : Repeats p P F) {as : List α} {ts more : List Token} (row : Row P as ts)
    (hm : F more) (hn : Refuses p more) : Reads (many p) as (ts ++ more) more := by
  intro cs run
  have ha := row.length_le h.nonempty
  have hl := run.length
  rw [List.length_append] at hl
  exact h.manyUpTo row hm hn (n := cs.length) (by omega) run

end Repeats

/-- No text of these tokens starts with the character. -/
def avoids (c : Char) : List Token → Bool
  | t :: _ => !t.mayStart c
  | [] => true

theorem avoids_append {c : Char} {ts us : List Token} (ht : avoids c ts = true)
    (hu : avoids c us = true) : avoids c (ts ++ us) = true := by
  cases ts with
  | nil => exact hu
  | cons t ts => exact ht

theorem Run.ne_cons {cs : List Char} {ts : List Token} {c : Char} (h : Run cs ts [])
    (hc : avoids c ts = true) (tail : List Char) : cs ≠ c :: tail := by
  rintro rfl
  cases ts with
  | nil => exact absurd h.eq_of_nil (by simp)
  | cons t ts =>
    obtain ⟨after, ht, -⟩ := h.cons_inv
    obtain ⟨d, rest, he, hd, -⟩ := ht.start
    rw [List.cons.injEq] at he
    rw [he.1] at hc
    simp [avoids, hd] at hc

theorem token_of_ne {text : String} {c : Char} {cs : List Char}
    (ht : text.toList.head? = some c) (h : ∀ tail, cs ≠ c :: tail) : token text cs = none := by
  cases hk : token text cs with
  | none => rfl
  | some ur =>
    obtain ⟨after, ha, -⟩ := token_eq_some.mp hk
    match hl : text.toList with
    | [] => simp [hl] at ht
    | d :: ds =>
      rw [hl, List.head?_cons, Option.some.injEq] at ht
      subst ht
      exact absurd (by rw [ha, hl]; rfl) (h (ds ++ after))

theorem refuses_token {text : String} {c : Char} {ts : List Token}
    (ht : text.toList.head? = some c) (h : avoids c ts = true) : Refuses (token text) ts :=
  fun _ run => token_of_ne ht (run.ne_cons h)

theorem quoted_of_ne {cs : List Char} (h : ∀ c ∈ quoteMarks, ∀ tail, cs ≠ c :: tail) :
    quoted cs = none := by
  unfold quoted
  split
  · next rest => exact absurd rfl (h '"' (by decide) rest)
  · next rest => exact absurd rfl (h '\'' (by decide) rest)
  · rfl

theorem identifier_of_ne {cs : List Char} (h : ∀ c ∈ cs.head?, isNameStart c = false) :
    identifier cs = none := by
  match cs with
  | [] => rfl
  | c :: cs => simp [identifier, h c rfl]

theorem reads_token {text : String} (hm : isMark text.toList = true) (more : List Token) :
    Reads (token text) () (.mark text :: more) more := by
  intro cs run
  obtain ⟨after, ht, hr⟩ := run.cons_inv
  exact ⟨_, (token_eq_some_takes hm).mpr ⟨after, ht, rfl⟩, hr⟩

theorem reads_identifier (n : String) (more : List Token) :
    Reads identifier n (.name n :: more) more := by
  intro cs run
  obtain ⟨after, ht, hr⟩ := run.cons_inv
  exact ⟨_, identifier_eq_some_takes.mpr ⟨after, ht, rfl⟩, hr⟩

theorem reads_index (text : String) (more : List Token) :
    Reads int text (.index text :: more) more := by
  intro cs run
  obtain ⟨after, ht, hr⟩ := run.cons_inv
  exact ⟨_, int_eq_some_takes.mpr ⟨after, ht, rfl⟩, hr⟩

theorem reads_int (text : String) (more : List Token) :
    Reads int text (.int text :: more) more := by
  intro cs run
  obtain ⟨after, ht, hr⟩ := run.cons_inv
  exact ⟨_, int_eq_some_takes.mpr ⟨after, ht.2, rfl⟩, hr⟩

theorem refuses_double (text : String) (more : List Token) :
    Refuses double (.int text :: more) := by
  intro cs run
  obtain ⟨after, ht, -⟩ := run.cons_inv
  exact double_eq_none.mpr ht.1

theorem reads_double (text : String) (more : List Token) :
    Reads double text (.double text :: more) more := by
  intro cs run
  obtain ⟨after, ht, hr⟩ := run.cons_inv
  exact ⟨_, double_eq_some_takes.mpr ⟨after, ht, rfl⟩, hr⟩

theorem reads_quoted (text : String) (more : List Token) :
    Reads quoted text (.quoted text :: more) more := by
  intro cs run
  obtain ⟨after, ht, hr⟩ := run.cons_inv
  exact ⟨_, quoted_eq_some_takes.mpr ⟨after, ht, rfl⟩, hr⟩

theorem reads_word {text : String} (hn : isName text.toList = true) (more : List Token) :
    Reads (word text) () (.name text :: more) more := by
  intro cs run
  obtain ⟨after, ht, hr⟩ := run.cons_inv
  exact ⟨_, (word_eq_some_takes hn).mpr ⟨after, ht, rfl⟩, hr⟩

theorem reads_separator {sep more : List Token} (hs : Separator sep)
    (hc : avoids ',' more = true) (hm : avoids ';' more = true) :
    Reads separator () (sep ++ more) more := by
  intro cs run
  cases hs with
  | absent =>
    refine ⟨cs, ?_, run⟩
    unfold separator
    split
    · next rest => exact absurd rfl (run.ne_cons hc rest)
    · next rest => exact absurd rfl (run.ne_cons hm rest)
    · rfl
  | comma | semicolon =>
    obtain ⟨after, ⟨-, rfl⟩, hr⟩ := run.cons_inv
    exact ⟨_, rfl, hr⟩

/-- Parts in a row, each with its separator. -/
theorem Repeats.ended {p : Reader α} {P : α → List Token → Prop} {F G : List Token → Prop}
    (hp : ∀ ⦃a ts us⦄, P a ts → G us → Reads p a (ts ++ us) us)
    (hs : ∀ ⦃sep us⦄, Separator sep → F us → G (sep ++ us))
    (hc : ∀ ⦃us⦄, F us → avoids ',' us = true ∧ avoids ';' us = true)
    (hn : ∀ ⦃a ts us⦄, P a ts → G us → F (ts ++ us)) (hne : ∀ ⦃a ts⦄, P a ts → ts ≠ []) :
    Repeats (do let a ← p; separator; Pure.pure a) (Ended P) F where
  reads := by
    rintro a _ us ⟨ts, sep, ha, hsep, rfl⟩ hus
    rw [List.append_assoc]
    have hr := reads_separator hsep (hc hus).1 (hc hus).2
    exact (hp ha (hs hsep hus)).bind hr.last
  next := by
    rintro a _ us ⟨ts, sep, ha, hsep, rfl⟩ hus
    rw [List.append_assoc]
    exact hn ha (hs hsep hus)
  nonempty := by
    rintro a _ ⟨ts, sep, ha, -, rfl⟩ he
    exact hne ha (List.append_eq_nil_iff.mp he).1

/-- Parts between marks, and what is read after them. -/
theorem Repeats.enclosed {p : Reader α} {P : α → List Token → Prop} {F : List Token → Prop}
    (h : Repeats p (Ended P) F) {opening closing : String} (ho : isMark opening.toList = true)
    (hc : isMark closing.toList = true) {as : List α} {ts us more : List Token}
    (hts : Enclosed opening P closing as ts) (hF : F (.mark closing :: us))
    (hn : Refuses p (.mark closing :: us)) {k : List α → Reader β} {b : β}
    (hk : Reads (k as) b us more) :
    Reads (do token opening; let as ← Reader.many p; token closing; k as) b (ts ++ us) more := by
  obtain ⟨vs, hvs, rfl⟩ := hts
  rw [List.cons_append, List.append_assoc]
  have hclose : Reads (do token closing; k as) b (.mark closing :: us) more :=
    (reads_token hc us).bind hk
  exact (reads_token ho _).bind ((h.many (items_iff_row.mp hvs) hF hn).bind hclose)

end SchemaGen.Idl
