import SchemaGen.Proofs.Idl.ConstantCompleteness

namespace SchemaGen.Idl

open Reader

variable {α β : Type}

theorem Refuses.after_maybe {p : Reader α} {f : Option α → Reader β} {ts : List Token}
    (hp : Refuses p ts) (hf : Refuses (f none) ts) : Refuses (maybe p >>= f) ts := by
  intro cs run
  rw [bind_of_some (maybe_of_none (hp run)), hf run]

/-- A keyword is refused where another one stands and neither goes on with the other. -/
theorem refuses_keyword {kw text : String}
    (h : ¬ kw.toList <+: text.toList ∧ ¬ text.toList <+: kw.toList) (us : List Token) :
    Refuses (token text) (.mark kw :: us) := by
  intro cs run
  obtain ⟨after, ⟨-, hcs⟩, -⟩ := run.cons_inv
  cases hk : token text cs with
  | none => rfl
  | some ur =>
    obtain ⟨tail, ht, -⟩ := token_eq_some.mp hk
    have hp : kw.toList <+: cs := ⟨after, hcs.symm⟩
    have hq : text.toList <+: cs := ⟨tail, ht.symm⟩
    rcases List.prefix_or_prefix_of_prefix hp hq with h' | h'
    · exact absurd h' h.1
    · exact absurd h' h.2

/-- A choice is passed over where the keyword of another one stands. -/
theorem Reads.past {f : Unit → Reader α} {q : Reader α} {a : α} {kw text : String}
    {us more : List Token} (h : ¬ kw.toList <+: text.toList ∧ ¬ text.toList <+: kw.toList)
    (hq : Reads q a (.mark kw :: us) more) :
    Reads (either (token text >>= f) q) a (.mark kw :: us) more :=
  .right ((refuses_keyword h us).bind f) hq

theorem Reads.past_map {f : Unit → Reader β} {g : β → α} {q : Reader α} {a : α}
    {kw text : String} {us more : List Token}
    (h : ¬ kw.toList <+: text.toList ∧ ¬ text.toList <+: kw.toList)
    (hq : Reads q a (.mark kw :: us) more) :
    Reads (either (g <$> (token text >>= f)) q) a (.mark kw :: us) more :=
  .right (((refuses_keyword h us).bind f).map g) hq

theorem refuses_token_name {text n : String} {c : Char} (ht : text.toList.head? = some c)
    (hn : n.toList.head? ≠ some c) (us : List Token) : Refuses (token text) (.name n :: us) := by
  intro cs run
  obtain ⟨after, ⟨hname, -, rfl⟩, -⟩ := run.cons_inv
  apply token_of_ne ht
  intro tail he
  match hl : n.toList with
  | [] => simp [hl, isName] at hname
  | d :: ds =>
    rw [hl, List.cons_append, List.cons.injEq] at he
    simp [hl, he.1] at hn

/-- What stands in front of a type. -/
theorem FieldType.Spells.front {t : FieldType} {ts : List Token} (h : t.Spells ts) :
    (∃ n us, ts = .name n :: us) ∨ ∃ text ∈ containerWords, ∃ us, ts = .mark text :: us := by
  cases h with
  | base b hn => exact .inl ⟨_, _, rfl⟩
  | container h hn =>
    obtain ⟨text, hw, us, rfl⟩ := h.front
    exact .inr ⟨text, hw, _, rfl⟩
  | named => exact .inl ⟨_, _, rfl⟩

/-- The token in front of a type goes on with no part before it. -/
theorem FieldType.Spells.clear_front {t : FieldType} {ts : List Token} (h : t.Spells ts) :
    ∃ k us, ts = k :: us ∧ clear [k] = true := by
  rcases h.front with ⟨n, us, rfl⟩ | ⟨text, hw, us, rfl⟩
  · exact ⟨_, us, rfl, rfl⟩
  · refine ⟨_, us, rfl, ?_⟩
    rcases mem_containerWords.mp hw with rfl | rfl | rfl <;> rfl

theorem refuses_int_type {t : FieldType} {ts : List Token} (h : t.Spells ts)
    (us : List Token) : Refuses int (ts ++ us) := by
  rcases h.front with ⟨n, vs, rfl⟩ | ⟨text, hw, vs, rfl⟩
  · exact refuses_int_front (not_startsNumber_name n) _
  · rcases mem_containerWords.mp hw with rfl | rfl | rfl
    all_goals exact refuses_int_front (not_startsNumber_mark rfl (by decide)) _

/-- A word that is no type of its own is not read off another type. -/
theorem refuses_word_type {w : String} {c : Char} (hw : w.toList.head? = some c)
    (hc : c ∉ ['m', 's', 'l']) (hb : BaseType.ofName? w = none) {t : FieldType}
    {ts : List Token} (h : t.Spells ts) (hn : t ≠ .named w) (us : List Token) :
    Refuses (word w) (ts ++ us) := by
  cases h with
  | base b _ =>
    apply refuses_word_name
    rintro rfl
    rw [ofName?_eq_some.mpr rfl] at hb
    cases hb
  | container h _ =>
    obtain ⟨text, ht, vs, rfl⟩ := h.front
    apply refuses_word hw
    simp only [List.mem_cons, List.not_mem_nil, or_false, not_or] at hc
    rcases mem_containerWords.mp ht with rfl | rfl | rfl
    · simpa [avoids, Token.mayStart] using Ne.symm hc.1
    · simpa [avoids, Token.mayStart] using Ne.symm hc.2.1
    · simpa [avoids, Token.mayStart] using Ne.symm hc.2.2
  | named _ =>
    apply refuses_word_name
    rintro rfl
    exact hn rfl

/-- No type starts with a closing mark. -/
theorem refuses_type {text : String} (h : text = ")" ∨ text = "\x7d") (us : List Token) :
    Refuses fieldType (.mark text :: us) := by
  have up (depth : Nat) : Refuses (fieldTypeUpTo depth) (.mark text :: us) := by
    cases depth with
    | zero => exact fun _ _ => rfl
    | succ depth =>
      have hb : Refuses baseType (.mark text :: us) := by
        intro cs run
        obtain ⟨after, ⟨-, rfl⟩, -⟩ := run.cons_inv
        rcases h with rfl | rfl <;> rfl
      rcases h with rfl | rfl
      all_goals
        refine .either (.bind (.either (hb.map _) (.either ?_ (.either ?_ ?_))) _) ?_
        · exact (refuses_token rfl rfl).bind _
        · exact (refuses_token rfl rfl).bind _
        · exact (refuses_token rfl rfl).bind _
        · exact (refuses_identifier rfl (by decide) us).map _
  exact fun cs run => up _ run

theorem avoids_annotations {as : Option (List Annotation)} {ns us : List Token}
    (h : Perhaps AnnotationsSpell as ns) {c : Char} (hc : c ≠ '(') (hu : avoids c us = true) :
    avoids c (ns ++ us) = true := by
  cases h with
  | absent => exact hu
  | present h =>
    obtain ⟨vs, -, rfl⟩ := h
    simp [avoids, Token.mayStart, hc.symm]

theorem avoids_assigned {P : α → List Token → Prop} {o : Option α} {ds us : List Token}
    (h : Perhaps (Assigned P) o ds) {c : Char} (hc : c ≠ '=') (hu : avoids c us = true) :
    avoids c (ds ++ us) = true := by
  cases h with
  | absent => exact hu
  | present h =>
    obtain ⟨vs, -, rfl⟩ := h
    simp [avoids, Token.mayStart, hc.symm]

theorem assigned_reads {p : Reader α} {P : α → List Token → Prop} {o : Option α}
    {ds more : List Token} (h : Perhaps (Assigned P) o ds)
    (hp : ∀ ⦃a ts⦄, P a ts → Reads p a (ts ++ more) more) (hm : avoids '=' more = true) :
    Reads (maybe do token "="; p) o (ds ++ more) more := by
  refine .perhaps h ?_ ((refuses_token rfl hm).bind _)
  rintro a _ ⟨us, ha, rfl⟩
  exact (reads_token (by decide) _).bind (hp ha)

theorem id_reads {id : Option Int} {is more : List Token} (h : IdSpells id is)
    (hm : Refuses int more) :
    ∃ o, o.bind intValue? = id ∧
      Reads (maybe do let text ← int; token ":"; pure text) o (is ++ more) more := by
  have hp {text : String} : Reads (do let text ← int; token ":"; pure text) text
      (.index text :: .mark ":" :: more) more :=
    (reads_index text _).bind (reads_token (by decide) more).last
  cases h with
  | absent => exact ⟨none, rfl, fun cs run => ⟨cs, maybe_of_none (hm.bind _ run), run⟩⟩
  | @present _ text h =>
    refine ⟨some text, h, fun cs run => ?_⟩
    obtain ⟨mid, ht, hr⟩ := hp run
    exact ⟨mid, maybe_of_some ht, hr⟩

theorem requiredness_reads {r : Requiredness} {t : FieldType} {ts : List Token}
    (h : t.Spells ts)
    (hr : r = .default → t ≠ .named "required" ∧ t ≠ .named "optional") (us : List Token) :
    ∃ o, o.getD .default = r ∧
      Reads (maybe requiredness) o (r.tokens ++ (ts ++ us)) (ts ++ us) := by
  have hp {o : Requiredness} (ho : Reads requiredness o (o.tokens ++ (ts ++ us)) (ts ++ us)) :
      Reads (maybe requiredness) (some o) (o.tokens ++ (ts ++ us)) (ts ++ us) := by
    intro cs run
    obtain ⟨mid, ht, hm⟩ := ho run
    exact ⟨mid, maybe_of_some ht, hm⟩
  cases r with
  | required => exact ⟨some .required, rfl, hp (.left (reads_word (by decide) _).last)⟩
  | optional =>
    refine ⟨some .optional, rfl, hp (.right ?_ (reads_word (by decide) _).last)⟩
    exact (refuses_word_name (by decide) _).bind _
  | default =>
    refine ⟨none, rfl, fun cs run => ⟨cs, maybe_of_none ?_, run⟩⟩
    have hreq := refuses_word_type rfl (by decide) (by decide) h (hr rfl).1 us
    have hopt := refuses_word_type rfl (by decide) (by decide) h (hr rfl).2 us
    exact Refuses.either (hreq.bind _) (hopt.bind _) run

theorem refuses_int_requiredness (r : Requiredness) {t : FieldType} {ts : List Token}
    (h : t.Spells ts) (us : List Token) : Refuses int (r.tokens ++ (ts ++ us)) := by
  cases r with
  | required | optional => exact refuses_int_front (not_startsNumber_name _) _
  | default => exact refuses_int_type h us

theorem field_reads {f : FieldDef} {ts us : List Token} (h : Ended FieldDef.Spells f ts)
    (hu : clear us = true) : Reads field f (ts ++ us) us := by
  obtain ⟨_, sep, h, hs, rfl⟩ := h
  cases h with
  | @mk is ts ds ns hi hr ht hd hn =>
    have after {c : Char} (hc : c ∈ continuations) (hcomma : c ≠ ',') (hsemi : c ≠ ';') :
        avoids c (sep ++ us) = true := avoids_separator hs hcomma hsemi (clear_avoids hu hc)
    have quote {c : Char} (hc : c ∈ quoteMarks) :
        avoids c (ds ++ (ns ++ (sep ++ us))) = true := by
      simp only [quoteMarks, List.mem_cons, List.not_mem_nil, or_false] at hc
      rcases hc with rfl | rfl
      all_goals
        apply avoids_assigned hd (by decide)
        exact avoids_annotations hn (by decide) (after (by decide) (by decide) (by decide))
    simp only [List.append_assoc, List.cons_append]
    obtain ⟨o, ho, hid⟩ := id_reads hi (refuses_int_requiredness f.requiredness ht _)
    obtain ⟨q, hq, hreq⟩ := requiredness_reads ht hr _
    have hf : Reads field
        ⟨o.bind intValue?, q.getD .default, f.type, f.name, f.default, f.annotations⟩
        (is ++ (f.requiredness.tokens ++ (ts ++ .name f.name :: (ds ++ (ns ++ (sep ++ us))))))
        us := by
      refine hid.bind (hreq.bind ?_)
      have hafter := afterType_name f.name (quote (by decide)) (quote (by decide))
      refine (fieldType_reads ht hafter).bind ((reads_identifier _ _).bind ?_)
      refine (assigned_reads hd (fun e ts he => constValue_reads _ he) ?_).bind ?_
      · exact avoids_annotations hn (by decide) (after (by decide) (by decide) (by decide))
      refine (perhaps_annotations_reads hn (after (by decide) (by decide) (by decide))).bind ?_
      exact (reads_separator hs (clear_avoids hu (by decide)) (clear_avoids hu (by decide))).last
    rwa [ho, hq] at hf

theorem clear_field {f : FieldDef} {ts : List Token} (h : f.Spells ts) (us : List Token) :
    ∃ t vs, ts ++ us = t :: vs ∧ clear (t :: vs) = true := by
  cases h with
  | @mk is ts ds ns hi hr ht hd hn =>
    generalize f.id = id at hi
    cases hi with
    | present h => exact ⟨_, _, rfl, rfl⟩
    | absent =>
      cases f.requiredness with
      | required | optional => exact ⟨_, _, rfl, rfl⟩
      | default =>
        obtain ⟨k, vs, rfl, hk⟩ := ht.clear_front
        exact ⟨k, _, rfl, hk⟩

theorem field_repeats : Repeats field (Ended FieldDef.Spells) fun us => clear us = true where
  reads _ _ _ h hu := field_reads h hu
  next := by
    rintro f _ us ⟨ts, sep, h, -, rfl⟩ -
    obtain ⟨t, vs, ht, hc⟩ := clear_field h (sep ++ us)
    rwa [List.append_assoc, ht]
  nonempty := by
    rintro f _ ⟨ts, sep, h, -, rfl⟩
    obtain ⟨t, vs, ht, -⟩ := clear_field h sep
    rw [ht]
    exact List.cons_ne_nil _ _

theorem refuses_field {text : String} (h : text = ")" ∨ text = "\x7d") (us : List Token) :
    Refuses field (.mark text :: us) := by
  have ht := refuses_type h us
  apply Refuses.after_maybe
  · apply Refuses.bind
    rcases h with rfl | rfl
    all_goals exact refuses_int_front (not_startsNumber_mark rfl (by decide)) us
  apply Refuses.after_maybe
  · rcases h with rfl | rfl
    all_goals exact .either ((refuses_word rfl rfl).bind _) ((refuses_word rfl rfl).bind _)
  exact ht.bind _

/-- Fields between marks, and what is read after them. -/
theorem fields_reads {opening closing : String} (ho : isMark opening.toList = true)
    (hc : closing = ")" ∨ closing = "\x7d") {fields : List FieldDef} {fs us more : List Token}
    (h : FieldsSpell opening closing fields fs) {k : List FieldDef → Reader β} {b : β}
    (hk : Reads (k fields) b us more) :
    Reads (do token opening; let fs ← many field; token closing; k fs) b (fs ++ us) more := by
  rcases hc with rfl | rfl
  all_goals exact field_repeats.enclosed ho (by decide) h rfl (refuses_field (by simp) _) hk

end SchemaGen.Idl
