import SchemaGen.Proofs.Idl.Reads

namespace SchemaGen.Idl

open Reader

/-- The characters that would go on with a part that has ended. -/
def continuations : List Char := ['=', '(', ',', ';', '"', '\'']

/-- What follows goes on with no part that has ended. -/
def clear (ts : List Token) : Bool := continuations.all fun c => avoids c ts

theorem clear_avoids {ts : List Token} (h : clear ts = true) {c : Char}
    (hc : c ∈ continuations) : avoids c ts = true := List.all_eq_true.mp h c hc

theorem clear_cons {t : Token} {us : List Token} (h : clear [t] = true) (vs : List Token) :
    clear (t :: us ++ vs) = true := h

/-- After a separator or without one. -/
theorem avoids_separator {sep us : List Token} (hs : Separator sep) {c : Char} (hc : c ≠ ',')
    (hm : c ≠ ';') (hu : avoids c us = true) : avoids c (sep ++ us) = true := by
  apply avoids_append _ hu
  cases hs with
  | absent => rfl
  | comma => simp [avoids, Token.mayStart, hc.symm]
  | semicolon => simp [avoids, Token.mayStart, hm.symm]

theorem refuses_annotations {ts : List Token} (h : avoids '(' ts = true) :
    Refuses annotations ts := (refuses_token rfl h).bind _

theorem annotation_reads (a : Annotation) {more : List Token} (h : avoids '=' more = true) :
    Reads annotation a (a.tokens ++ more) more := by
  obtain ⟨n, value⟩ := a
  have hv {ts : List Token}
      (ht : Perhaps (fun text us => us = [.mark "=", .quoted text]) value ts) :
      Reads annotation ⟨n, value⟩ (.name n :: ts ++ more) more := by
    have hm : Reads (maybe do token "="; quoted) value (ts ++ more) more := by
      apply Reads.perhaps ht
      · rintro text _ rfl
        exact (reads_token (by decide) _).bind (reads_quoted text more)
      · exact (refuses_token rfl h).bind _
    exact (reads_identifier n _).bind hm.last
  cases value with
  | none => exact hv .absent
  | some text => exact hv (.present rfl)

theorem annotation_repeats :
    Repeats (do let a ← annotation; separator; pure a) (Ended fun a ts => ts = a.tokens)
      fun us => clear us = true := by
  apply Repeats.ended (G := fun us => avoids '=' us = true)
  · rintro a _ us rfl hus
    exact annotation_reads a hus
  · intro sep us hs hus
    exact avoids_separator hs (by decide) (by decide) (clear_avoids hus (by decide))
  · intro us hus
    exact ⟨clear_avoids hus (by decide), clear_avoids hus (by decide)⟩
  · rintro a _ us rfl -
    rfl
  · rintro a _ rfl
    exact List.cons_ne_nil _ _

theorem refuses_identifier {c : Char} {text : String} (hc : text.toList.head? = some c)
    (hn : isNameStart c = false) (us : List Token) : Refuses identifier (.mark text :: us) := by
  intro cs run
  obtain ⟨after, ⟨-, rfl⟩, -⟩ := run.cons_inv
  apply identifier_of_ne
  intro d hd
  rw [List.head?_append, hc] at hd
  cases hd
  exact hn

theorem annotations_reads {as : List Annotation} {ts : List Token} (h : AnnotationsSpell as ts)
    (more : List Token) : Reads annotations as (ts ++ more) more :=
  annotation_repeats.enclosed (by decide) (by decide) h rfl
    (((refuses_identifier rfl (by decide) _).bind _).bind _) fun _ run => ⟨_, rfl, run⟩

theorem perhaps_annotations_reads {as : Option (List Annotation)} {ts more : List Token}
    (h : Perhaps AnnotationsSpell as ts) (hm : avoids '(' more = true) :
    Reads (maybe annotations) as (ts ++ more) more :=
  .perhaps h (fun _ _ ha => annotations_reads ha more) (refuses_annotations hm)

theorem dropped_reads {ts more : List Token} (h : Dropped ts) (hm : avoids '(' more = true) :
    ∃ as, Reads (maybe annotations) as (ts ++ more) more := by
  obtain ⟨as, ha⟩ := h
  exact ⟨as, perhaps_annotations_reads ha hm⟩

/-- The rest of a text inside of a name, with tokens after it, or right after the name. -/
inductive NameRest (more : List Token) : List Char → Prop where
  | after {cs : List Char} (run : Run cs more []) : NameRest more cs
  | within {n after : List Char} (hn : n ≠ []) (h : ∀ c ∈ n, isNameChar c = true)
      (hs : Stops isNameChar after) (run : Run (skip after) more []) : NameRest more (n ++ after)

theorem NameRest.ne_cons {more : List Token} {cs : List Char} (h : NameRest more cs) {c : Char}
    (hc : avoids c more = true) (hn : isNameChar c = false) (tail : List Char) :
    cs ≠ c :: tail := by
  cases h with
  | after run => exact run.ne_cons hc tail
  | @within n after hne hall _ _ =>
    intro he
    cases n with
    | nil => exact hne rfl
    | cons d n =>
      rw [List.cons_append, List.cons.injEq] at he
      have hd := hall d (by simp)
      simp [he.1, hn] at hd

theorem not_mem_gapOpeners_of_isNameChar {c : Char} (h : isNameChar c = true) :
    c ∉ gapOpeners := by
  intro hc
  simp only [gapOpeners, List.mem_cons, List.not_mem_nil, or_false] at hc
  rcases hc with rfl | rfl | rfl | rfl | rfl | rfl <;>
    simp [isNameChar, isLetter, isDigit] at h

/-- A literal text that is read inside of a name leaves the rest of the name. -/
theorem token_within {n after cs rest : List Char} {text : String} {more : List Token} {u : Unit}
    (hall : ∀ c ∈ n, isNameChar c = true) (hs : Stops isNameChar after)
    (run : Run (skip after) more []) (hcs : cs = n ++ after)
    (ht : text.toList.all isNameChar = true) (h : token text cs = some (u, rest)) :
    NameRest more rest := by
  obtain ⟨tail, hc, rfl⟩ := token_eq_some.mp h
  rw [hcs] at hc
  have hlong : text.toList.length ≤ n.length := by
    have hw := congrArg (List.takeWhile isNameChar) hc
    rw [takeWhile_append_stop hall hs, List.takeWhile_append_of_pos (List.all_eq_true.mp ht)] at hw
    rw [hw, List.length_append]
    omega
  obtain ⟨m, rfl⟩ : text.toList <+: n :=
    List.prefix_of_prefix_length_le ⟨tail, hc.symm⟩ (List.prefix_append n after) hlong
  rw [List.append_assoc, List.append_cancel_left_eq] at hc
  subst hc
  cases m with
  | nil => exact .after run
  | cons c m =>
    have hm : ∀ x ∈ c :: m, isNameChar x = true := fun x hx => hall x (by simp_all)
    rw [List.cons_append, skip_cons _ (not_mem_gapOpeners_of_isNameChar (hm c (by simp)))]
    exact .within (List.cons_ne_nil c m) hm hs run

/-- What may follow a type: the mark that ends it, or a name before which no quoted text can be
taken for a foreign type name. -/
def AfterType : List Token → Prop
  | .mark text :: _ => text = "," ∨ text = ">"
  | .name _ :: us => avoids '"' us = true ∧ avoids '\'' us = true
  | _ => False

theorem afterType_comma (us : List Token) : AfterType (.mark "," :: us) := .inl rfl

theorem afterType_angle (us : List Token) : AfterType (.mark ">" :: us) := .inr rfl

theorem afterType_name (n : String) {us : List Token} (hd : avoids '"' us = true)
    (hs : avoids '\'' us = true) : AfterType (.name n :: us) := ⟨hd, hs⟩

theorem AfterType.avoids {more : List Token} (h : AfterType more) {c : Char}
    (hc : isNameStart c = false) (hm : c ≠ ',') (hn : c ≠ '>') : avoids c more = true := by
  match more with
  | .mark text :: _ =>
    rcases h with rfl | rfl
    · simp [Idl.avoids, Token.mayStart, hm.symm]
    · simp [Idl.avoids, Token.mayStart, hn.symm]
  | .name _ :: _ => simp [Idl.avoids, Token.mayStart, hc]

theorem quoted_none_of_nameRest {more : List Token} {cs : List Char} (h : NameRest more cs)
    (hd : avoids '"' more = true) (hs : avoids '\'' more = true) : quoted cs = none := by
  apply quoted_of_ne
  intro c hc
  simp only [quoteMarks, List.mem_cons, List.not_mem_nil, or_false] at hc
  rcases hc with rfl | rfl
  · exact h.ne_cons hd (by decide)
  · exact h.ne_cons hs (by decide)

theorem foreign_of_within {n after : List Char} {more : List Token}
    (hall : ∀ c ∈ n, isNameChar c = true) (hs : Stops isNameChar after)
    (run : Run (skip after) more []) (hd : avoids '"' more = true)
    (hq : avoids '\'' more = true) : foreignType (n ++ after) = none := by
  cases ht : token "cpp_type" (n ++ after) with
  | none => exact bind_of_none ht
  | some ur =>
    have hr := token_within hall hs run rfl (by decide) ht
    rw [foreignType, bind_of_some ht, bind_of_none (quoted_none_of_nameRest hr hd hq)]

theorem refuses_foreign {more : List Token} (h : AfterType more) : Refuses foreignType more := by
  intro cs run
  match more with
  | .mark text :: _ =>
    apply bind_of_none
    rcases h with rfl | rfl
    · exact refuses_token rfl rfl run
    · exact refuses_token rfl rfl run
  | .name n :: us =>
    obtain ⟨after, ⟨hn, hs, rfl⟩, hr⟩ := run.cons_inv
    exact foreign_of_within (isNameChar_of_isName hn) hs hr h.1 h.2

theorem foreign_of_nameRest {more : List Token} {cs : List Char} (h : NameRest more cs)
    (hm : AfterType more) : foreignType cs = none := by
  cases h with
  | after run => exact refuses_foreign hm run
  | within _ hall hs run =>
    exact foreign_of_within hall hs run (hm.avoids (by decide) (by decide) (by decide))
      (hm.avoids (by decide) (by decide) (by decide))

theorem foreign_reads {fs more : List Token} (h : Foreign fs) (hn : Refuses foreignType more) :
    ∃ o, Reads (maybe foreignType) o (fs ++ more) more := by
  cases h with
  | absent => exact ⟨none, fun cs run => ⟨cs, maybe_of_none (hn run), run⟩⟩
  | present text =>
    refine ⟨some (), fun cs run => ?_⟩
    have hf : Reads foreignType () (.mark "cpp_type" :: .quoted text :: more) more :=
      (reads_token (by decide) _).bind (reads_quoted text more).last
    obtain ⟨mid, hp, hr⟩ := hf run
    exact ⟨mid, maybe_of_some hp, hr⟩

theorem refuses_foreign_mark {text : String} (h : text.toList.head? ≠ some 'c')
    (us : List Token) : Refuses foreignType (.mark text :: us) := by
  have hc : avoids 'c' (.mark text :: us) = true := by simpa [avoids, Token.mayStart] using h
  exact (refuses_token rfl hc).bind _

theorem container_reads {p : Reader FieldType} {P : FieldType → List Token → Prop}
    (hp : ∀ ⦃t ts us⦄, P t ts → AfterType us → Reads p t (ts ++ us) us) {t : FieldType}
    {ts more : List Token} (h : ContainerSpells P t ts) (hm : Refuses foreignType more) :
    Reads (container p) t (ts ++ more) more := by
  have angle {us : List Token} : Refuses foreignType (.mark "<" :: us) :=
    refuses_foreign_mark (by decide) us
  cases h with
  | map hk hv hf =>
    simp only [List.cons_append, List.append_assoc]
    obtain ⟨o, hf⟩ := foreign_reads hf angle
    apply Reads.left
    refine (reads_token (by decide) _).bind (hf.bind ((reads_token (by decide) _).bind ?_))
    refine (hp hk (afterType_comma _)).bind ((reads_token (by decide) _).bind ?_)
    exact (hp hv (afterType_angle _)).bind (reads_token (by decide) _).last
  | set ht hf =>
    simp only [List.cons_append, List.append_assoc]
    obtain ⟨o, hf⟩ := foreign_reads hf angle
    apply Reads.right ((refuses_token rfl rfl).bind _)
    apply Reads.left
    refine (reads_token (by decide) _).bind (hf.bind ((reads_token (by decide) _).bind ?_))
    exact (hp ht (afterType_angle _)).bind (reads_token (by decide) _).last
  | list ht hf =>
    simp only [List.cons_append, List.append_assoc]
    obtain ⟨o, hf⟩ := foreign_reads hf hm
    apply Reads.right ((refuses_token rfl rfl).bind _)
    apply Reads.right ((refuses_token rfl rfl).bind _)
    refine (reads_token (by decide) _).bind ((reads_token (by decide) _).bind ?_)
    exact (hp ht (afterType_angle _)).bind ((reads_token (by decide) _).bind hf.last)

/-- A keyword is read off the front of a name only to fail on what comes after it. -/
theorem refuses_keyword_name {α : Type} {f : Unit → Reader α} {text n : String} {more : List Token}
    (ht : text.toList.all isNameChar = true)
    (hf : ∀ rest, NameRest more rest → f () rest = none) :
    Refuses (token text >>= f) (.name n :: more) := by
  intro cs run
  cases h : token text cs with
  | none => exact bind_of_none h
  | some ur =>
    obtain ⟨after, ⟨hn, hs, hcs⟩, hr⟩ := run.cons_inv
    have hrest := token_within (isNameChar_of_isName hn) hs hr hcs ht h
    rw [bind_of_some h]
    exact hf ur.2 hrest

/-- No container starts where a name ends a type, even if the name starts like one. -/
theorem refuses_container (p : Reader FieldType) {n : String} {more : List Token}
    (hm : AfterType more) : Refuses (container p) (.name n :: more) := by
  have hclose : avoids '<' more = true := hm.avoids (by decide) (by decide) (by decide)
  have angle {α : Type} {f : Unit → Reader α} {rest : List Char} (h : NameRest more rest) :
      (token "<" >>= f) rest = none :=
    bind_of_none (token_of_ne rfl (h.ne_cons hclose (by decide)))
  have foreign {rest : List Char} (h : NameRest more rest) :
      maybe foreignType rest = some (none, rest) := maybe_of_none (foreign_of_nameRest h hm)
  apply Refuses.either
  · apply refuses_keyword_name (by decide)
    intro rest h
    rw [bind_of_some (foreign h), angle h]
  apply Refuses.either
  · apply refuses_keyword_name (by decide)
    intro rest h
    rw [bind_of_some (foreign h), angle h]
  · exact refuses_keyword_name (by decide) fun rest h => angle h

theorem baseType_reads (b : BaseType) (more : List Token) :
    Reads baseType b (.name b.name :: more) more := by
  intro cs run
  have ht := takeWhile_name run
  obtain ⟨after, ⟨hn, hs, rfl⟩, hr⟩ := run.cons_inv
  have hd := dropWhile_append_stop (isNameChar_of_isName hn) hs
  have hb : BaseType.ofName? (String.ofList ((b.name.toList ++ after).takeWhile isNameChar)) =
      some b := by rw [ht, String.ofList_toList, ofName?_eq_some]
  exact ⟨_, baseType_eq_some.mpr ⟨hb, by rw [hd]⟩, hr⟩

theorem baseType_eq_none {cs : List Char} :
    baseType cs = none ↔ BaseType.ofName? (String.ofList (cs.takeWhile isNameChar)) = none := by
  unfold baseType
  split <;> simp [*]

theorem refuses_baseType_name {n : String} (h : BaseType.ofName? n = none) (more : List Token) :
    Refuses baseType (.name n :: more) := by
  intro cs run
  rw [baseType_eq_none, takeWhile_name run, String.ofList_toList, h]

/-- The keywords of containers. -/
def containerWords : List String := ["map", "set", "list"]

theorem mem_containerWords {text : String} :
    text ∈ containerWords ↔ text = "map" ∨ text = "set" ∨ text = "list" := by
  simp [containerWords]

/-- No base type starts like a container. -/
theorem refuses_baseType_container {text : String} (h : text ∈ containerWords)
    (more : List Token) : Refuses baseType (.mark text :: more) := by
  intro cs run
  obtain ⟨after, ⟨-, rfl⟩, -⟩ := run.cons_inv
  have hall : text.toList.all isNameChar = true := by
    rcases mem_containerWords.mp h with rfl | rfl | rfl <;> decide
  rw [baseType_eq_none, List.takeWhile_append_of_pos (List.all_eq_true.mp hall)]
  cases hb : BaseType.ofName? (String.ofList (text.toList ++ after.takeWhile isNameChar)) with
  | none => rfl
  | some b =>
    have hn := congrArg String.toList (ofName?_eq_some.mp hb)
    have hp : text.toList <+: b.name.toList := ⟨_, by rw [← hn, String.toList_ofList]⟩
    rcases mem_containerWords.mp h with rfl | rfl | rfl <;> cases b <;> revert hp <;> decide

theorem ContainerSpells.mono {P Q : FieldType → List Token → Prop} {t : FieldType}
    {ts : List Token} (h : ContainerSpells P t ts)
    (hpq : ∀ ⦃u us⦄, us.length < ts.length → P u us → Q u us) : ContainerSpells Q t ts := by
  cases h with
  | list ht hf =>
    refine .list (hpq ?_ ht) hf
    simp only [List.length_cons, List.length_append]
    omega
  | set ht hf =>
    refine .set (hpq ?_ ht) hf
    simp only [List.length_cons, List.length_append]
    omega
  | map hk hv hf =>
    refine .map (hpq ?_ hk) (hpq ?_ hv) hf
    all_goals
      simp only [List.length_cons, List.length_append]
      omega

/-- The keyword in front of a container. -/
theorem ContainerSpells.front {P : FieldType → List Token → Prop} {t : FieldType}
    {ts : List Token} (h : ContainerSpells P t ts) :
    ∃ text ∈ containerWords, ∃ us, ts = .mark text :: us := by
  cases h with
  | list => exact ⟨"list", by decide, _, rfl⟩
  | set => exact ⟨"set", by decide, _, rfl⟩
  | map => exact ⟨"map", by decide, _, rfl⟩

theorem AfterType.dropped {ns more : List Token} (hm : AfterType more) (hn : Dropped ns) :
    Refuses foreignType (ns ++ more) := by
  obtain ⟨as, hn⟩ := hn
  cases hn with
  | absent => exact refuses_foreign hm
  | present h =>
    obtain ⟨us, -, rfl⟩ := h
    exact refuses_foreign_mark (by decide) _

theorem fieldTypeUpTo_reads {depth : Nat} {t : FieldType} {ts more : List Token}
    (h : t.Spells ts) (hl : ts.length ≤ depth) (hm : AfterType more) :
    Reads (fieldTypeUpTo depth) t (ts ++ more) more := by
  have paren : avoids '(' more = true := hm.avoids (by decide) (by decide) (by decide)
  induction depth generalizing t ts more with
  | zero =>
    cases h with
    | base => simp at hl
    | container h _ =>
      obtain ⟨_, _, _, rfl⟩ := h.front
      simp at hl
    | named => simp at hl
  | succ depth ih =>
    cases h with
    | base b hn =>
      obtain ⟨_, hd⟩ := dropped_reads hn paren
      apply Reads.left
      exact ((baseType_reads b _).map _).left.bind hd.last
    | @container _ ts ns h hn =>
      obtain ⟨_, hd⟩ := dropped_reads hn paren
      rw [List.length_append] at hl
      have hc : ContainerSpells (fun u us => u.Spells us ∧ us.length ≤ depth) t ts :=
        h.mono fun _ _ hlt hu => ⟨hu, by omega⟩
      obtain ⟨text, hw, us, rfl⟩ := h.front
      have hr := container_reads
        (fun u us vs hu hv => ih hu.1 hu.2 hv (hv.avoids (by decide) (by decide) (by decide)))
        hc (hm.dropped hn)
      rw [List.append_assoc]
      apply Reads.left
      exact (Reads.right ((refuses_baseType_container hw _).map _) hr).bind hd.last
    | named hb =>
      apply Reads.right
      · apply Refuses.bind
        exact ((refuses_baseType_name hb _).map _).either (refuses_container _ hm)
      · exact (reads_identifier _ _).map _

theorem fieldType_reads {t : FieldType} {ts more : List Token} (h : t.Spells ts)
    (hm : AfterType more) : Reads fieldType t (ts ++ more) more := by
  intro cs run
  have hl := run.length
  rw [List.length_append] at hl
  exact fieldTypeUpTo_reads h (by omega) hm run

end SchemaGen.Idl
