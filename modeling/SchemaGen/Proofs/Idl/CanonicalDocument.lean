import SchemaGen.Proofs.Idl.Canonical

namespace SchemaGen.Idl

variable {α : Type}

theorem perhapsTokens_sayable {P : α → List Token → Prop} {f : α → List Token} {o : Option α}
    {ts : List Token} (h : Sayable (Perhaps P) o ts)
    (hf : ∀ ⦃a us⦄, Sayable P a us → Sayable P a (f a)) :
    Sayable (Perhaps P) o (perhapsTokens f o) := by
  obtain ⟨h, hv⟩ := h
  cases h with
  | absent => exact ⟨.absent, valid_nil⟩
  | present h =>
    have hs := hf ⟨h, hv⟩
    exact ⟨.present hs.spells, hs.valid⟩

theorem getD_present (as : List α) : (present as).getD [] = as := by
  cases as <;> rfl

/-- A list that is left out when it is empty need not have been. -/
theorem present_sayable {P : List α → List Token → Prop} {o : Option (List α)} {as : List α}
    {ts : List Token} (h : Sayable (Perhaps P) o ts) (ho : as = o.getD []) :
    ∃ us, Sayable (Perhaps P) (present as) us := by
  subst ho
  obtain ⟨h, hv⟩ := h
  cases h with
  | absent => exact ⟨[], .absent, valid_nil⟩
  | @present as _ h =>
    cases as with
    | nil => exact ⟨[], .absent, valid_nil⟩
    | cons a as => exact ⟨ts, .present h, hv⟩

theorem assignedTokens_sayable {P : α → List Token → Prop} {f : α → List Token} {a : α}
    {ts : List Token} (h : Sayable (Assigned P) a ts)
    (hf : ∀ ⦃us⦄, Sayable P a us → Sayable P a (f a)) :
    Sayable (Assigned P) a (assignedTokens f a) := by
  obtain ⟨⟨us, hus, rfl⟩, hv⟩ := h
  rw [valid_cons] at hv
  have hs := hf ⟨hus, hv.2⟩
  exact ⟨⟨_, hs.spells, rfl⟩, valid_cons.mpr ⟨hv.1, hs.valid⟩⟩

theorem FieldDef.tokens_sayable {f : FieldDef} {ts : List Token}
    (h : Sayable FieldDef.Spells f ts) : Sayable FieldDef.Spells f f.tokens := by
  obtain ⟨h, hv⟩ := h
  cases h with
  | @mk is ts ds ns hi hr ht hd hn =>
    simp only [valid_append, valid_cons] at hv
    obtain ⟨his, hreq, hts, hname, hds, hns⟩ := hv
    have hi := idTokens_sayable ⟨hi, his⟩
    have ht := FieldType.tokens_sayable ⟨ht, hts⟩
    have hd := perhapsTokens_sayable ⟨hd, hds⟩ fun e us he =>
      assignedTokens_sayable he fun vs => ConstExpr.tokens_sayable
    have hn := perhapsTokens_sayable ⟨hn, hns⟩ fun as us => annotationTokens_sayable
    refine ⟨.mk hi.spells hr ht.spells hd.spells hn.spells, ?_⟩
    simp only [FieldDef.tokens, valid_append, valid_cons]
    exact ⟨hi.valid, hreq, ht.valid, hname, hd.valid, hn.valid⟩

theorem fieldsTokens_sayable {opening closing : String} {fields : List FieldDef}
    {ts : List Token} (h : Sayable (FieldsSpell opening closing) fields ts) :
    Sayable (FieldsSpell opening closing) fields
      (listTokens opening FieldDef.tokens closing fields) :=
  listTokens_sayable h fun _ _ => FieldDef.tokens_sayable

theorem StructDef.tokens_sayable {keyword : String} {s : StructDef} {ts : List Token}
    (h : Sayable (StructDef.Spells keyword) s ts) :
    Sayable (StructDef.Spells keyword) s (s.tokens keyword) := by
  obtain ⟨⟨fs, ns, notes, hf, hn, ha, rfl⟩, hv⟩ := h
  simp only [valid_append, valid_cons] at hv
  obtain ⟨hk, hname, hfs, hns⟩ := hv
  have hf := fieldsTokens_sayable ⟨hf, hfs⟩
  obtain ⟨us, hu⟩ := present_sayable ⟨hn, hns⟩ ha
  have hn := perhapsTokens_sayable hu fun as us => annotationTokens_sayable
  refine ⟨⟨_, _, _, hf.spells, hn.spells, (getD_present _).symm, rfl⟩, ?_⟩
  simp only [StructDef.tokens, valid_append, valid_cons]
  exact ⟨hk, hname, hf.valid, hn.valid⟩

theorem memberValueTokens_valid (i : Int) : Valid (assignedTokens memberValueTokens i) := by
  simp only [assignedTokens, memberValueTokens, valid_cons, valid_nil, and_true]
  exact ⟨valid_mark (by decide), valid_decimal i⟩

theorem EnumMember.tokens_sayable {m : EnumMember} {ts : List Token}
    (h : Sayable EnumMember.Spells m ts) : Sayable EnumMember.Spells m m.tokens := by
  obtain ⟨n, value⟩ := m
  obtain ⟨⟨text, vs, ns, hv, hn, rfl, rfl⟩, hvalid⟩ := h
  simp only [valid_append, valid_cons] at hvalid
  cases hi : text.bind intValue? with
  | none =>
    have hs : EnumMember.Spells ⟨n, none⟩ [.name n] :=
      ⟨none, [], [], .absent, dropped_nil, rfl, rfl⟩
    exact ⟨hs, valid_cons.mpr ⟨hvalid.1, valid_nil⟩⟩
  | some i =>
    obtain ⟨t, rfl, ht⟩ := Option.bind_eq_some_iff.mp hi
    have hindex : (Token.index t).Valid := by
      obtain ⟨-, hvs, -⟩ := hvalid
      cases hv with
      | present h =>
        obtain ⟨_, rfl, rfl⟩ := h
        exact (valid_cons.mp (valid_cons.mp hvs).2).1
    have hs : EnumMember.Spells ⟨n, some i⟩
        (.name n :: (assignedTokens memberValueTokens i ++ [])) :=
      ⟨some (String.ofList (decimal i)), _, [], .present ⟨_, rfl, rfl⟩, dropped_nil,
        (intValue?_decimal hindex ht).symm, rfl⟩
    rw [List.append_nil] at hs
    exact ⟨hs, valid_cons.mpr ⟨hvalid.1, memberValueTokens_valid i⟩⟩

theorem throwsTokens_sayable {fields : List FieldDef} {ts : List Token}
    (h : Sayable ThrowsSpell fields ts) : Sayable ThrowsSpell fields (throwsTokens fields) := by
  obtain ⟨⟨us, hu, rfl⟩, hv⟩ := h
  rw [valid_cons] at hv
  have hf := fieldsTokens_sayable ⟨hu, hv.2⟩
  exact ⟨⟨_, hf.spells, rfl⟩, valid_cons.mpr ⟨hv.1, hf.valid⟩⟩

theorem Function.tokens_sayable {f : Function} {ts : List Token}
    (h : Sayable Function.Spells f ts) : Sayable Function.Spells f f.tokens := by
  obtain ⟨h, hv⟩ := h
  cases h with
  | @mk ts ps es ns throws ho ht hp he ht' hn =>
    simp only [valid_append, valid_cons] at hv
    obtain ⟨hone, hts, hname, hps, hes, -⟩ := hv
    have ht := FieldType.tokens_sayable ⟨ht, hts⟩
    have hp := fieldsTokens_sayable ⟨hp, hps⟩
    obtain ⟨us, hu⟩ := present_sayable ⟨he, hes⟩ ht'
    have he := perhapsTokens_sayable hu fun fields us => throwsTokens_sayable
    have hs := Function.Spells.mk ho ht.spells hp.spells he.spells (getD_present _).symm dropped_nil
    rw [List.append_nil] at hs
    refine ⟨hs, ?_⟩
    simp only [Function.tokens, valid_append, valid_cons]
    exact ⟨hone, ht.valid, hname, hp.valid, he.valid⟩

theorem extendsTokens_sayable {base : String} {ts : List Token}
    (h : Sayable ExtendsSpell base ts) : Sayable ExtendsSpell base (extendsTokens base) := by
  obtain ⟨rfl, hv⟩ := h
  exact ⟨rfl, hv⟩

theorem Definition.tokens_sayable {d : Definition} {ts : List Token}
    (h : Sayable Definition.Spells d ts) : Sayable Definition.Spells d d.tokens := by
  obtain ⟨h, hv⟩ := h
  cases h with
  | struct h =>
    have hs := StructDef.tokens_sayable ⟨h, hv⟩
    exact ⟨.struct hs.spells, hs.valid⟩
  | union h =>
    have hs := StructDef.tokens_sayable ⟨h, hv⟩
    exact ⟨.union hs.spells, hs.valid⟩
  | exception h =>
    have hs := StructDef.tokens_sayable ⟨h, hv⟩
    exact ⟨.exception hs.spells, hs.valid⟩
  | @enum n members ms ns hm hn =>
    simp only [valid_append, valid_cons] at hv
    have hi := listTokens_sayable ⟨hm, hv.2.2.1⟩ fun m us => EnumMember.tokens_sayable
    have hs := Definition.Spells.enum (n := n) hi.spells dropped_nil
    rw [List.append_nil] at hs
    exact ⟨hs, valid_cons.mpr ⟨hv.1, valid_cons.mpr ⟨hv.2.1, hi.valid⟩⟩⟩
  | typedef ht hn =>
    simp only [valid_append, valid_cons] at hv
    have ht := FieldType.tokens_sayable ⟨ht, hv.2.1⟩
    refine ⟨.typedef ht.spells dropped_nil, ?_⟩
    simp only [Definition.tokens, valid_cons, valid_append, valid_nil, and_true]
    exact ⟨hv.1, ht.valid, hv.2.2.1⟩
  | const ht he =>
    simp only [valid_append, valid_cons] at hv
    obtain ⟨hk, hts, hname, hequals, hes⟩ := hv
    have ht := FieldType.tokens_sayable ⟨ht, hts⟩
    have he := ConstExpr.tokens_sayable ⟨he, hes⟩
    refine ⟨.const ht.spells he.spells, ?_⟩
    simp only [Definition.tokens, valid_cons, valid_append]
    exact ⟨hk, ht.valid, hname, hequals, he.valid⟩
  | @service n base functions bs fs ns hb hf hn =>
    simp only [valid_append, valid_cons] at hv
    obtain ⟨hk, hname, hbs, hfs, -⟩ := hv
    have hb := perhapsTokens_sayable ⟨hb, hbs⟩ fun base us => extendsTokens_sayable
    have hf := listTokens_sayable ⟨hf, hfs⟩ fun f us => Function.tokens_sayable
    have hs := Definition.Spells.service (n := n) hb.spells hf.spells dropped_nil
    rw [List.append_nil] at hs
    refine ⟨hs, ?_⟩
    simp only [Definition.tokens, valid_cons, valid_append]
    exact ⟨hk, hname, hb.valid, hf.valid⟩

theorem Header.tokens_sayable {h : Header} {ts : List Token}
    (hs : Sayable Header.Spells h ts) : Sayable Header.Spells h h.tokens := by
  obtain ⟨hs, hv⟩ := hs
  cases hs with
  | «include» path => exact ⟨.include path, hv⟩
  | cppInclude path => exact ⟨.cppInclude path, hv⟩
  | ns hn =>
    simp only [valid_cons] at hv
    refine ⟨.ns dropped_nil, ?_⟩
    simp only [Header.tokens, valid_cons, valid_nil, and_true]
    exact ⟨hv.1, hv.2.1, hv.2.2.1⟩

theorem row_tokens {P : α → List Token → Prop} {f : α → List Token} {as : List α}
    {ts : List Token} (h : Sayable (Row P) as ts)
    (hf : ∀ ⦃a us⦄, Sayable P a us → Sayable P a (f a)) :
    Sayable (Row P) as (as.flatMap f) := by
  obtain ⟨h, hv⟩ := h
  induction h with
  | nil => exact ⟨.nil, valid_nil⟩
  | cons ha _ ih =>
    rw [valid_append] at hv
    have hone := hf ⟨ha, hv.1⟩
    have hrest := ih hv.2
    exact ⟨.cons hone.spells hrest.spells, valid_append.mpr ⟨hone.valid, hrest.valid⟩⟩

theorem Document.tokens_sayable {d : Document} {ts : List Token}
    (h : Sayable Document.Spells d ts) : Sayable Document.Spells d d.tokens := by
  obtain ⟨h, hv⟩ := h
  cases h with
  | mk hh hd =>
    rw [valid_append] at hv
    have hh := row_tokens ⟨hh, hv.1⟩ fun h us => Header.tokens_sayable
    have hd := row_tokens (f := Definition.tokens) ⟨items_iff_row.mp hd, hv.2⟩ fun d us h => by
      obtain ⟨⟨vs, sep, hvs, -, rfl⟩, hval⟩ := h
      have hs := Definition.tokens_sayable ⟨hvs, (valid_append.mp hval).1⟩
      exact ⟨⟨_, [], hs.spells, .absent, (List.append_nil _).symm⟩, hs.valid⟩
    exact ⟨.mk hh.spells (items_iff_row.mpr hd.spells), valid_append.mpr ⟨hh.valid, hd.valid⟩⟩

end SchemaGen.Idl
