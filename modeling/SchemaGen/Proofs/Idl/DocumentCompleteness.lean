import SchemaGen.Idl.Diagnostic
import SchemaGen.Proofs.Idl.FieldCompleteness

namespace SchemaGen.Idl

open Reader

theorem structBody_reads {keyword : String} (hk : isMark keyword.toList = true) {s : StructDef}
    {ts us : List Token} (h : s.Spells keyword ts) (hu : avoids '(' us = true) :
    Reads (structBody keyword) s (ts ++ us) us := by
  obtain ⟨fs, ns, notes, hf, hn, ha, rfl⟩ := h
  have hs : Reads (structBody keyword) ⟨s.name, s.fields, notes.getD []⟩
      (.mark keyword :: .name s.name :: (fs ++ (ns ++ us))) us := by
    refine (reads_token hk _).bind ((reads_identifier _ _).bind ?_)
    exact fields_reads (by decide) (.inr rfl) hf (perhaps_annotations_reads hn hu).last
  rw [← ha] at hs
  simpa only [List.cons_append, List.append_assoc] using hs

theorem enumMember_reads {m : EnumMember} {ts us : List Token} (h : m.Spells ts)
    (hp : avoids '(' us = true) (he : avoids '=' us = true) :
    Reads enumMember m (ts ++ us) us := by
  obtain ⟨text, vs, ns, hv, hn, hm, rfl⟩ := h
  have hs : Reads enumMember ⟨m.name, text.bind intValue?⟩ (.name m.name :: (vs ++ (ns ++ us)))
      us := by
    refine (reads_identifier _ _).bind ?_
    obtain ⟨as, hn⟩ := hn
    refine (assigned_reads hv ?_ (avoids_annotations hn (by decide) he)).bind ?_
    · rintro text _ rfl
      exact reads_index text _
    exact (perhaps_annotations_reads hn hp).last
  rw [← hm] at hs
  simpa only [List.cons_append, List.append_assoc] using hs

theorem enumMember_repeats :
    Repeats (do let m ← enumMember; separator; pure m) (Ended EnumMember.Spells)
      fun us => clear us = true := by
  apply Repeats.ended (G := fun us => avoids '(' us = true ∧ avoids '=' us = true)
  · intro m ts us h hu
    exact enumMember_reads h hu.1 hu.2
  · intro sep us hs hu
    exact ⟨avoids_separator hs (by decide) (by decide) (clear_avoids hu (by decide)),
      avoids_separator hs (by decide) (by decide) (clear_avoids hu (by decide))⟩
  · intro us hu
    exact ⟨clear_avoids hu (by decide), clear_avoids hu (by decide)⟩
  · rintro m _ us ⟨text, vs, ns, hv, hn, hm, rfl⟩ -
    rfl
  · rintro m _ ⟨text, vs, ns, hv, hn, hm, rfl⟩
    exact List.cons_ne_nil _ _

theorem enumDef_reads {n : String} {members : List EnumMember} {ms ns us : List Token}
    (hm : Enclosed "\x7b" EnumMember.Spells "\x7d" members ms) (hn : Dropped ns)
    (hu : avoids '(' us = true) :
    Reads enumDef (.enum n members) (.mark "enum" :: .name n :: (ms ++ (ns ++ us))) us := by
  refine (reads_token (by decide) _).bind ((reads_identifier n _).bind ?_)
  obtain ⟨_, hd⟩ := dropped_reads hn hu
  refine enumMember_repeats.enclosed (by decide) (by decide) hm rfl ?_ hd.last
  exact ((refuses_identifier rfl (by decide) _).bind _).bind _

theorem throws_reads {fields : List FieldDef} {ts : List Token} (h : ThrowsSpell fields ts)
    (us : List Token) : Reads throwsClause fields (ts ++ us) us := by
  obtain ⟨vs, hv, rfl⟩ := h
  refine (reads_token (by decide) _).bind ?_
  exact fields_reads (by decide) (.inl rfl) hv fun _ run => ⟨_, rfl, run⟩

theorem onewayTokens_reads {f : Function} {t : FieldType} {ts : List Token} (h : t.Spells ts)
    (hf : f.oneway = false → t ≠ .named "oneway") (us : List Token) :
    ∃ o : Option Unit, o.isSome = f.oneway ∧
      Reads (maybe (word "oneway")) o (onewayTokens f.oneway ++ (ts ++ us)) (ts ++ us) := by
  cases ho : f.oneway with
  | true =>
    refine ⟨some (), rfl, fun cs run => ?_⟩
    obtain ⟨mid, hw, hr⟩ := reads_word (by decide) _ run
    exact ⟨mid, maybe_of_some hw, hr⟩
  | false =>
    refine ⟨none, rfl, fun cs run => ⟨cs, maybe_of_none ?_, run⟩⟩
    exact refuses_word_type rfl (by decide) (by decide) h (hf ho) us run

/-- What may follow a function. -/
def AfterFunction (us : List Token) : Prop := avoids '(' us = true ∧ Refuses throwsClause us

theorem refuses_throws_front {us : List Token} (h : avoids 't' us = true) :
    Refuses throwsClause us := (refuses_token rfl h).bind _

theorem function_reads {f : Function} {ts us : List Token} (h : f.Spells ts)
    (hu : AfterFunction us) : Reads function f (ts ++ us) us := by
  cases h with
  | @mk ts ps es ns throws ho ht hp he hv hn =>
    obtain ⟨as, hn⟩ := hn
    have hns : Refuses throwsClause (ns ++ us) := by
      cases hn with
      | absent => exact hu.2
      | present hn =>
        obtain ⟨vs, -, rfl⟩ := hn
        exact refuses_throws_front rfl
    obtain ⟨o, hoo, hw⟩ := onewayTokens_reads ht ho (.name f.name :: (ps ++ (es ++ (ns ++ us))))
    have hf : Reads function ⟨o.isSome, f.returns, f.name, f.params, throws.getD []⟩
        (onewayTokens f.oneway ++ (ts ++ .name f.name :: (ps ++ (es ++ (ns ++ us))))) us := by
      refine hw.bind ((fieldType_reads ht ?_).bind ((reads_identifier _ _).bind ?_))
      · obtain ⟨vs, -, rfl⟩ := hp
        exact afterType_name f.name rfl rfl
      refine fields_reads (by decide) (.inl rfl) hp ?_
      refine (Reads.perhaps he (fun _ _ ht => throws_reads ht _) hns).bind ?_
      exact (perhaps_annotations_reads hn hu.1).last
    rw [hoo, ← hv] at hf
    simpa only [List.cons_append, List.append_assoc] using hf

/-- The clause of one function is not read off the next function. -/
theorem refuses_throws {f : Function} {ts : List Token} (h : f.Spells ts) (us : List Token) :
    Refuses throwsClause (ts ++ us) := by
  cases h with
  | @mk ts ps es ns throws ho ht hp he hv hn =>
    cases f.oneway with
    | true => exact (refuses_token_name rfl (by decide) _).bind _
    | false =>
      generalize f.returns = t at ht
      cases ht with
      | base b _ => exact (refuses_token_name rfl (by cases b <;> decide) _).bind _
      | container hc _ =>
        obtain ⟨text, hw, vs, rfl⟩ := hc.front
        rcases mem_containerWords.mp hw with rfl | rfl | rfl <;> exact refuses_throws_front rfl
      | named _ =>
        apply refuses_keyword_name (by decide)
        intro rest h
        exact bind_of_none (token_of_ne rfl (h.ne_cons rfl (by decide)))

theorem Function.Spells.front {f : Function} {ts : List Token} (h : f.Spells ts)
    (us : List Token) : ∃ t vs, ts ++ us = t :: vs ∧ clear (t :: vs) = true := by
  cases h with
  | @mk ts ps es ns throws ho ht hp he hv hn =>
    cases f.oneway with
    | true => exact ⟨_, _, rfl, rfl⟩
    | false =>
      obtain ⟨k, vs, rfl, hk⟩ := ht.clear_front
      exact ⟨k, _, rfl, hk⟩

theorem function_repeats :
    Repeats (do let f ← function; separator; pure f) (Ended Function.Spells)
      fun us => clear us = true ∧ Refuses throwsClause us := by
  apply Repeats.ended (G := AfterFunction)
  · intro f ts us h hu
    exact function_reads h hu
  · intro sep us hs hu
    refine ⟨avoids_separator hs (by decide) (by decide) (clear_avoids hu.1 (by decide)), ?_⟩
    cases hs with
    | absent => exact hu.2
    | comma | semicolon => exact refuses_throws_front rfl
  · intro us hu
    exact ⟨clear_avoids hu.1 (by decide), clear_avoids hu.1 (by decide)⟩
  · intro f ts us h _
    obtain ⟨t, vs, ht, hc⟩ := h.front us
    exact ⟨by rwa [ht], refuses_throws h us⟩
  · intro f ts h
    obtain ⟨t, vs, ht, -⟩ := h.front []
    rw [List.append_nil] at ht
    rw [ht]
    exact List.cons_ne_nil _ _

theorem refuses_function (us : List Token) : Refuses function (.mark "\x7d" :: us) :=
  .after_maybe (refuses_word rfl rfl) ((refuses_type (.inr rfl) us).bind _)

theorem extends_reads {base : String} {ts : List Token} (h : ExtendsSpell base ts)
    (us : List Token) : Reads (do token "extends"; identifier) base (ts ++ us) us := by
  rw [ExtendsSpell] at h
  subst h
  exact (reads_token (by decide) _).bind (reads_identifier base us)

theorem serviceDef_reads {n : String} {base : Option String} {functions : List Function}
    {bs fs ns us : List Token} (hb : Perhaps ExtendsSpell base bs)
    (hf : Enclosed "\x7b" Function.Spells "\x7d" functions fs) (hn : Dropped ns)
    (hu : avoids '(' us = true) :
    Reads serviceDef (.service n base functions)
      (.mark "service" :: .name n :: (bs ++ (fs ++ (ns ++ us)))) us := by
  have hext : Refuses (do token "extends"; identifier) (fs ++ (ns ++ us)) := by
    obtain ⟨vs, -, rfl⟩ := hf
    exact (refuses_token rfl rfl).bind _
  obtain ⟨_, hd⟩ := dropped_reads hn hu
  refine (reads_token (by decide) _).bind ((reads_identifier n _).bind ?_)
  refine (Reads.perhaps hb (fun _ _ h => extends_reads h _) hext).bind ?_
  exact function_repeats.enclosed (by decide) (by decide) hf ⟨rfl, refuses_throws_front rfl⟩
    ((refuses_function _).bind _) hd.last

theorem constDef_reads {t : FieldType} {n : String} {e : ConstExpr} {ts es : List Token}
    (ht : t.Spells ts) (he : e.Spells es) (us : List Token) :
    Reads constDef (.const t n e)
      (.mark "const" :: (ts ++ .name n :: .mark "=" :: (es ++ us))) us := by
  refine (reads_token (by decide) _).bind ((fieldType_reads ht ?_).bind ?_)
  · exact afterType_name n rfl rfl
  refine (reads_identifier n _).bind ((reads_token (by decide) _).bind ?_)
  exact (constValue_reads us he).last

theorem typedefDef_reads {t : FieldType} {n : String} {ts ns us : List Token}
    (ht : t.Spells ts) (hn : Dropped ns) (hp : avoids '(' us = true)
    (hq : ∀ c ∈ quoteMarks, avoids c us = true) :
    Reads typedefDef (.typedef t n) (.mark "typedef" :: (ts ++ .name n :: (ns ++ us))) us := by
  obtain ⟨as, hn⟩ := hn
  refine (reads_token (by decide) _).bind ((fieldType_reads ht ?_).bind ?_)
  · exact afterType_name n (avoids_annotations hn (by decide) (hq _ (by decide)))
      (avoids_annotations hn (by decide) (hq _ (by decide)))
  exact (reads_identifier n _).bind (perhaps_annotations_reads hn hp).last

/-- What may follow a definition before its separator. -/
def AfterDefinition (us : List Token) : Prop :=
  avoids '(' us = true ∧ ∀ c ∈ quoteMarks, avoids c us = true

/-- The keyword in front of a definition. -/
theorem Definition.Spells.front {d : Definition} {ts : List Token} (h : d.Spells ts) :
    ∃ us, ts = .mark d.kind.keyword :: us := by
  cases h with
  | struct h | union h | exception h =>
    obtain ⟨fs, ns, notes, -, -, -, rfl⟩ := h
    exact ⟨_, rfl⟩
  | enum | typedef | const | service => exact ⟨_, rfl⟩

theorem clear_keyword (kind : Kind) : clear [.mark kind.keyword] = true := by
  cases kind <;> decide

/-- A definition without the separator after it. -/
def anyDefinition : Reader Definition :=
  either constDef <|
  either typedefDef <|
  either enumDef <|
  either (Definition.struct <$> structBody "struct") <|
  either (Definition.union <$> structBody "union") <|
  either (Definition.exception <$> structBody "exception") serviceDef

/-- The kinds of definitions that are tried in vain have other keywords. -/
theorem anyDefinition_reads {d : Definition} {ts us : List Token} (h : d.Spells ts)
    (hu : AfterDefinition us) : Reads anyDefinition d (ts ++ us) us := by
  cases h with
  | const ht he =>
    simp only [List.cons_append, List.append_assoc]
    exact (constDef_reads ht he us).left
  | typedef ht hn =>
    simp only [List.cons_append, List.append_assoc]
    apply Reads.past (by decide)
    exact (typedefDef_reads ht hn hu.1 hu.2).left
  | enum hm hn =>
    simp only [List.cons_append, List.append_assoc]
    apply Reads.past (by decide)
    apply Reads.past (by decide)
    exact (enumDef_reads hm hn hu.1).left
  | struct h =>
    have hr := structBody_reads (by decide) h hu.1
    obtain ⟨fs, ns, notes, -, -, -, rfl⟩ := h
    apply Reads.past (by decide)
    apply Reads.past (by decide)
    apply Reads.past (by decide)
    exact (hr.map _).left
  | union h =>
    have hr := structBody_reads (by decide) h hu.1
    obtain ⟨fs, ns, notes, -, -, -, rfl⟩ := h
    apply Reads.past (by decide)
    apply Reads.past (by decide)
    apply Reads.past (by decide)
    apply Reads.past_map (by decide)
    exact (hr.map _).left
  | exception h =>
    have hr := structBody_reads (by decide) h hu.1
    obtain ⟨fs, ns, notes, -, -, -, rfl⟩ := h
    apply Reads.past (by decide)
    apply Reads.past (by decide)
    apply Reads.past (by decide)
    apply Reads.past_map (by decide)
    apply Reads.past_map (by decide)
    exact (hr.map _).left
  | service hb hf hn =>
    simp only [List.cons_append, List.append_assoc]
    apply Reads.past (by decide)
    apply Reads.past (by decide)
    apply Reads.past (by decide)
    apply Reads.past_map (by decide)
    apply Reads.past_map (by decide)
    apply Reads.past_map (by decide)
    exact serviceDef_reads hb hf hn hu.1

theorem definition_repeats :
    Repeats definition (Ended Definition.Spells) fun us => clear us = true := by
  apply Repeats.ended (G := AfterDefinition)
  · intro d ts us h hu
    exact anyDefinition_reads h hu
  · intro sep us hs hu
    refine ⟨avoids_separator hs (by decide) (by decide) (clear_avoids hu (by decide)), ?_⟩
    intro c hc
    simp only [quoteMarks, List.mem_cons, List.not_mem_nil, or_false] at hc
    rcases hc with rfl | rfl
    all_goals exact avoids_separator hs (by decide) (by decide) (clear_avoids hu (by decide))
  · intro us hu
    exact ⟨clear_avoids hu (by decide), clear_avoids hu (by decide)⟩
  · intro d ts us h _
    obtain ⟨vs, rfl⟩ := h.front
    exact clear_cons (clear_keyword d.kind) us
  · intro d ts h
    obtain ⟨vs, rfl⟩ := h.front
    exact List.cons_ne_nil _ _

theorem scope_reads (scope : String) (us : List Token) :
    Reads Idl.scope scope (scopeToken scope :: us) us := by
  rw [scopeToken]
  split
  · next hs =>
    subst hs
    exact Reads.left (reads_token (by decide) us).last
  · exact Reads.right ((refuses_token rfl rfl).bind _) (reads_identifier scope us)

theorem header_repeats : Repeats header Header.Spells fun us => clear us = true where
  reads := by
    intro h ts us hs hu
    cases hs with
    | cppInclude path =>
      apply Reads.left
      exact (reads_token (by decide) _).bind ((reads_quoted path us).map _)
    | «include» path =>
      apply Reads.past (by decide)
      apply Reads.left
      exact (reads_token (by decide) _).bind ((reads_quoted path us).map _)
    | @ns scope name ns hn =>
      apply Reads.past (by decide)
      apply Reads.past (by decide)
      obtain ⟨_, hd⟩ := dropped_reads hn (clear_avoids hu (by decide))
      refine (reads_token (by decide) _).bind ((scope_reads scope _).bind ?_)
      exact (reads_identifier name _).bind hd.last
  next := by
    intro h ts us hs _
    cases hs <;> rfl
  nonempty := by
    intro h ts hs
    cases hs <;> exact List.cons_ne_nil _ _

/-- No header starts with the keyword of a definition. -/
theorem refuses_header {ds : List Definition} {ts : List Token}
    (h : Row (Ended Definition.Spells) ds ts) : Refuses header ts := by
  cases h with
  | nil =>
    refine .either (.bind ?_ _) (.either (.bind ?_ _) (.bind ?_ _))
    all_goals exact refuses_token rfl rfl
  | cons hd _ =>
    obtain ⟨us, sep, hs, -, rfl⟩ := hd
    obtain ⟨vs, rfl⟩ := hs.front
    refine .either (.bind ?_ _) (.either (.bind ?_ _) (.bind ?_ _))
    all_goals
      apply refuses_keyword
      generalize Definition.kind _ = kind
      cases kind <;> decide

theorem refuses_definition_end : Refuses definition [] := by
  apply Refuses.bind
  refine .either (.bind ?_ _) (.either (.bind ?_ _) (.either (.bind ?_ _) ?_))
  · exact refuses_token rfl rfl
  · exact refuses_token rfl rfl
  · exact refuses_token rfl rfl
  refine .either (.map (.bind ?_ _) _) (.either (.map (.bind ?_ _) _) ?_)
  · exact refuses_token rfl rfl
  · exact refuses_token rfl rfl
  refine .either (.map (.bind ?_ _) _) (.bind ?_ _)
  · exact refuses_token rfl rfl
  · exact refuses_token rfl rfl

theorem document_reads {d : Document} {ts : List Token} (h : d.Spells ts) :
    Reads document d ts [] := by
  cases h with
  | @mk hs ds hh hd =>
    have row := items_iff_row.mp hd
    have hdef := definition_repeats.many row rfl refuses_definition_end
    have hclear : clear (ds ++ []) = true := definition_repeats.follow row rfl
    rw [List.append_nil] at hdef hclear
    exact (header_repeats.many hh hclear (refuses_header row)).bind hdef.last

theorem parse_eq_ok {source : String} {d : Document} :
    parse source = .ok d ↔ document (skip source.toList) = some (d, []) := by
  unfold parse document?
  split
  · next d' he =>
    split at he
    · next hd =>
      cases he
      simp [hd]
    · cases he
  · next he =>
    split at he
    · cases he
    · next hd => simpa using hd d

/-- A text is read as a document exactly when it runs through tokens that spell the document. -/
theorem parse_eq_ok_iff_spells {source : String} {d : Document} :
    parse source = .ok d ↔ ∃ ts, d.Spells ts ∧ Run (skip source.toList) ts [] := by
  rw [parse_eq_ok]
  constructor
  · intro h
    exact document_spelling h
  · rintro ⟨ts, hs, run⟩
    obtain ⟨mid, hd, hr⟩ := document_reads hs run
    rw [hd, hr.eq_of_nil]

end SchemaGen.Idl
