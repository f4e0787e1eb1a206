import SchemaGen.Proofs.Idl.Printing
import SchemaGen.Proofs.Idl.WholeNumber

namespace SchemaGen.Idl

variable {α : Type}

/-- Its text is read as the token, with nothing left. -/
def Token.Valid : Token → Prop
  | mark text => isMark text.toList = true
  | name text => isName text.toList = true
  | index text | int text => intSpan text.toList = some (text.toList, [])
  | double text => doubleSpan text.toList = some (text.toList, [])
  | quoted _ => True

theorem Token.Takes.valid {t : Token} {cs after : List Char} (h : t.Takes cs after) : t.Valid := by
  cases t with
  | mark text | name text => exact h.1
  | index text => exact intSpan_again h
  | int text => exact intSpan_again h.2
  | double text => exact doubleSpan_again h
  | quoted text => trivial

theorem Token.Written.takes {t : Token} {cs : List Char} (h : t.Written cs) (hv : t.Valid) :
    t.Takes cs [] := by
  cases h with
  | mark text => exact ⟨hv, (List.append_nil _).symm⟩
  | name text => exact ⟨hv, stops_nil _, (List.append_nil _).symm⟩
  | index text => exact hv
  | int text => exact ⟨doubleSpan_of_intSpan hv, hv⟩
  | double text => exact hv
  | quoted text hq => exact ⟨_, hq, _, rfl, quotedRest_escape hq _ _⟩

def Valid (ts : List Token) : Prop := ∀ t ∈ ts, t.Valid

theorem Run.valid {cs rest : List Char} {ts : List Token} (h : Run cs ts rest) : Valid ts := by
  induction h with
  | nil =>
    intro t ht
    cases ht
  | cons ht _ ih =>
    intro t hm
    rcases List.mem_cons.mp hm with rfl | hm
    · exact ht.valid
    · exact ih t hm

@[simp] theorem valid_nil : Valid [] := by simp [Valid]

@[simp] theorem valid_cons {t : Token} {ts : List Token} :
    Valid (t :: ts) ↔ t.Valid ∧ Valid ts := List.forall_mem_cons

@[simp] theorem valid_append {ts us : List Token} : Valid (ts ++ us) ↔ Valid ts ∧ Valid us :=
  List.forall_mem_append

theorem valid_mark {text : String} (h : isMark text.toList = true) : (Token.mark text).Valid := h

/-- The part is spelled by tokens that a text can hold. -/
structure Sayable (P : α → List Token → Prop) (a : α) (ts : List Token) : Prop where
  spells : P a ts
  valid : Valid ts

theorem items_tokens {P : α → List Token → Prop} {f : α → List Token} {as : List α}
    {ts : List Token} (h : Items P as ts) (hv : Valid ts)
    (hf : ∀ ⦃a us⦄, us.length ≤ ts.length → Sayable P a us → Sayable P a (f a)) :
    Sayable (Items P) as (as.flatMap fun a => f a ++ [.mark ","]) := by
  induction h with
  | nil => exact ⟨.nil, valid_nil⟩
  | @cons a as us sep vs ha hs _ ih =>
    simp only [valid_append] at hv
    obtain ⟨⟨hu, -⟩, hvs⟩ := hv
    have hone := hf (by simp only [List.length_append]; omega) ⟨ha, hu⟩
    have hrest := ih hvs fun b ws hl hb => hf (by simp only [List.length_append]; omega) hb
    refine ⟨.cons hone.spells .comma hrest.spells, ?_⟩
    simp only [List.flatMap_cons, valid_append, valid_cons, valid_nil, and_true]
    exact ⟨⟨hone.valid, valid_mark (by decide)⟩, hrest.valid⟩

theorem listTokens_sayable {P : α → List Token → Prop} {f : α → List Token}
    {opening closing : String} {as : List α} {ts : List Token}
    (h : Sayable (Enclosed opening P closing) as ts)
    (hf : ∀ ⦃a us⦄, Sayable P a us → Sayable P a (f a)) :
    Sayable (Enclosed opening P closing) as (listTokens opening f closing as) := by
  obtain ⟨⟨us, hus, rfl⟩, hv⟩ := h
  simp only [valid_cons, valid_append] at hv
  obtain ⟨ho, hu, hc⟩ := hv
  have hi := items_tokens hus hu fun a us _ ha => hf ha
  refine ⟨⟨_, hi.spells, rfl⟩, ?_⟩
  simp only [listTokens, valid_cons, valid_append]
  exact ⟨ho, hi.valid, hc⟩

theorem annotationTokens_sayable {as : List Annotation} {ts : List Token}
    (h : Sayable AnnotationsSpell as ts) : Sayable AnnotationsSpell as (annotationTokens as) := by
  apply listTokens_sayable h
  rintro a us ⟨rfl, hv⟩
  exact ⟨rfl, hv⟩

theorem dropped_nil : Dropped [] := ⟨none, .absent⟩

/-- A container without annotations. -/
theorem FieldType.Spells.plain {t : FieldType} {ts : List Token}
    (h : ContainerSpells FieldType.Spells t ts) : t.Spells ts := by
  have hs := FieldType.Spells.container h dropped_nil
  rwa [List.append_nil] at hs

theorem FieldType.tokens_sayable {t : FieldType} {ts : List Token}
    (h : Sayable FieldType.Spells t ts) : Sayable FieldType.Spells t t.tokens := by
  obtain ⟨h, hv⟩ := h
  induction t generalizing ts with
  | base b =>
    cases h with
    | container hc _ => cases hc
    | base _ _ =>
      simp only [valid_cons] at hv
      exact ⟨.base b dropped_nil, valid_cons.mpr ⟨hv.1, valid_nil⟩⟩
  | list t ih =>
    cases h with
    | container hc _ =>
      cases hc with
      | list ht _ =>
        simp only [valid_cons, valid_append, List.cons_append, List.append_assoc] at hv
        have hi := ih ht hv.2.2.1
        refine ⟨.plain (.list hi.spells .absent), ?_⟩
        simp only [FieldType.tokens, valid_cons, valid_append, valid_nil, and_true]
        exact ⟨hv.1, hv.2.1, hi.valid, hv.2.2.2.1⟩
  | set t ih =>
    cases h with
    | container hc _ =>
      cases hc with
      | set ht _ =>
        simp only [valid_cons, valid_append, List.cons_append, List.append_assoc] at hv
        have hi := ih ht hv.2.2.2.1
        refine ⟨.plain (.set hi.spells .absent), ?_⟩
        simp only [FieldType.tokens, valid_cons, valid_append, valid_nil, and_true]
        exact ⟨hv.1, hv.2.2.1, hi.valid, hv.2.2.2.2.1⟩
  | map k v ihk ihv =>
    cases h with
    | container hc _ =>
      cases hc with
      | map hk hkv _ =>
        simp only [valid_cons, valid_append, List.cons_append, List.append_assoc] at hv
        obtain ⟨hm, -, ha, hks, hcomma, hvs, hb, -⟩ := hv
        have hik := ihk hk hks
        have hiv := ihv hkv hvs
        refine ⟨.plain (.map hik.spells hiv.spells .absent), ?_⟩
        simp only [FieldType.tokens, valid_cons, valid_append, valid_nil, and_true]
        exact ⟨hm, ha, hik.valid, hcomma, hiv.valid, hb⟩
  | named n =>
    cases h with
    | container hc _ => cases hc
    | named hb => exact ⟨.named hb, hv⟩

theorem itemTokens_eq (items : List ConstExpr) :
    itemTokens items = items.flatMap fun e => e.tokens ++ [.mark ","] := by
  induction items with
  | nil => rfl
  | cons e es ih => simp [itemTokens, ih]

theorem entryTokens_eq (entries : List (ConstExpr × ConstExpr)) :
    entryTokens entries =
      entries.flatMap fun e => e.1.tokens ++ .mark ":" :: e.2.tokens ++ [.mark ","] := by
  induction entries with
  | nil => rfl
  | cons e es ih => simp [entryTokens, ih]

theorem entryTokens_sayable {P : α → List Token → Prop} {f : α → List Token} {e : α × α}
    {ts : List Token} (h : Sayable (Entry P) e ts)
    (hf : ∀ ⦃a us⦄, us.length < ts.length → Sayable P a us → Sayable P a (f a)) :
    Sayable (Entry P) e (f e.1 ++ .mark ":" :: f e.2) := by
  obtain ⟨h, hv⟩ := h
  cases h with
  | mk hk hvalue =>
    simp only [valid_append, valid_cons] at hv
    obtain ⟨hks, hcolon, hvs⟩ := hv
    have hik := hf (by simp only [List.length_append, List.length_cons]; omega) ⟨hk, hks⟩
    have hiv := hf (by simp only [List.length_append, List.length_cons]; omega) ⟨hvalue, hvs⟩
    refine ⟨.mk hik.spells hiv.spells, ?_⟩
    simp only [valid_append, valid_cons]
    exact ⟨hik.valid, hcolon, hiv.valid⟩

theorem ConstExpr.tokens_sayable {e : ConstExpr} {ts : List Token}
    (h : Sayable ConstExpr.Spells e ts) : Sayable ConstExpr.Spells e e.tokens := by
  induction hn : ts.length using Nat.strongRecOn generalizing e ts with
  | ind n ih =>
    obtain ⟨h, hv⟩ := h
    cases h with
    | bool b => exact ⟨.bool b, hv⟩
    | int text => exact ⟨.int text, hv⟩
    | double text => exact ⟨.double text, hv⟩
    | string text => exact ⟨.string text, hv⟩
    | identifier h => exact ⟨.identifier h, hv⟩
    | @list items us h =>
      simp only [valid_cons, valid_append] at hv
      simp only [List.length_cons, List.length_append] at hn
      have hi := items_tokens h hv.2.1 fun e vs hl he => ih vs.length (by omega) he rfl
      rw [ConstExpr.tokens, itemTokens_eq]
      refine ⟨.list hi.spells, ?_⟩
      simp only [valid_cons, valid_append]
      exact ⟨hv.1, hi.valid, hv.2.2⟩
    | @map entries us h =>
      simp only [valid_cons, valid_append] at hv
      simp only [List.length_cons, List.length_append] at hn
      have hi := items_tokens h hv.2.1 fun e vs hl he =>
        entryTokens_sayable he fun c ws hlt hc => ih ws.length (by omega) hc rfl
      rw [ConstExpr.tokens, entryTokens_eq]
      refine ⟨.map hi.spells, ?_⟩
      simp only [valid_cons, valid_append]
      exact ⟨hv.1, hi.valid, hv.2.2⟩

theorem decimalDigits_isDigit {n : Nat} :
    ∀ c ∈ Numeric.decimalDigits n, isDigit c = true := by
  intro c hc
  have hd := Numeric.mem_decimalDigits hc
  simp [isDigit, hd.1, hd.2]

theorem wholeNumber_decimal (i : Int) : WholeNumber (decimal i) i := by
  have hm := MagnitudeText.decimal (Numeric.decimalDigits_ne_nil i.natAbs) decimalDigits_isDigit
  rw [← ofDigits_eq_placeValue, Numeric.ofDigits_decimalDigits] at hm
  unfold decimal
  split
  · have hvalue : -1 * (i.natAbs : Int) = i := by omega
    have hw := WholeNumber.mk .minus hm
    rw [hvalue] at hw
    exact hw
  · have hvalue : 1 * (i.natAbs : Int) = i := by omega
    have hw := WholeNumber.mk .absent hm
    rw [hvalue] at hw
    exact hw

/-- A printed integer is read whole. -/
theorem intSpan_decimal (i : Int) : intSpan (decimal i) = some (decimal i, []) :=
  intSpan_whole_iff.mpr ⟨i, wholeNumber_decimal i⟩

/-- A number that is kept is printed as a text that denotes it. -/
theorem intValue?_decimal {text : String} {i : Int} (hv : (Token.index text).Valid)
    (h : intValue? text = some i) : intValue? (String.ofList (decimal i)) = some i := by
  have hd : WholeNumber (String.ofList (decimal i)).toList i := by
    rw [String.toList_ofList]
    exact wholeNumber_decimal i
  obtain ⟨v, hw⟩ := intSpan_whole_iff.mp hv
  rw [hw.intValue?_eq] at h
  split at h
  · next hrange =>
    cases h
    rw [hd.intValue?_eq, if_pos hrange]
  · cases h

theorem valid_decimal (i : Int) : (Token.index (String.ofList (decimal i))).Valid := by
  simp only [Token.Valid, String.toList_ofList, intSpan_decimal]

theorem idTokens_sayable {id : Option Int} {ts : List Token} (h : Sayable IdSpells id ts) :
    Sayable IdSpells id (perhapsTokens idTokens id) := by
  cases id with
  | none => exact ⟨.absent, valid_nil⟩
  | some i =>
    refine ⟨?_, ?_⟩
    · obtain ⟨h, hv⟩ := h
      cases h with
      | present ht => exact .present (intValue?_decimal (valid_cons.mp hv).1 ht)
    · simp only [perhapsTokens, idTokens, valid_cons, valid_nil, and_true]
      exact ⟨valid_decimal i, valid_mark (by decide)⟩

end SchemaGen.Idl
