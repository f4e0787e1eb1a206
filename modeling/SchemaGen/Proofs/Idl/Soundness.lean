import SchemaGen.Proofs.Idl.Spelling

namespace SchemaGen.Idl

open Reader

variable {α : Type}

/-- A reader passes exactly the tokens that spell what it reads. -/
def Spelling (p : Reader α) (P : α → List Token → Prop) : Prop :=
  ∀ ⦃cs a rest⦄, p cs = some (a, rest) → ∃ ts, P a ts ∧ Run cs ts rest

theorem token_spelling {text : String} (hm : isMark text.toList = true) :
    Spelling (token text) fun _ ts => ts = [.mark text] := by
  intro cs u rest h
  obtain ⟨after, ht, rfl⟩ := (token_eq_some_takes hm).mp h
  exact ⟨_, rfl, .single ht⟩

theorem identifier_spelling : Spelling identifier fun n ts => ts = [.name n] := by
  intro cs n rest h
  obtain ⟨after, ht, rfl⟩ := identifier_eq_some_takes.mp h
  exact ⟨_, rfl, .single ht⟩

theorem index_spelling : Spelling int fun s ts => ts = [.index s] := by
  intro cs s rest h
  obtain ⟨after, ht, rfl⟩ := int_eq_some_takes.mp h
  exact ⟨_, rfl, .single ht⟩

theorem double_spelling : Spelling double fun s ts => ts = [.double s] := by
  intro cs s rest h
  obtain ⟨after, ht, rfl⟩ := double_eq_some_takes.mp h
  exact ⟨_, rfl, .single ht⟩

theorem quoted_spelling : Spelling quoted fun s ts => ts = [.quoted s] := by
  intro cs s rest h
  obtain ⟨after, ht, rfl⟩ := quoted_eq_some_takes.mp h
  exact ⟨_, rfl, .single ht⟩

theorem separator_spelling : Spelling separator fun _ ts => Separator ts := by
  intro cs u rest h
  unfold separator at h
  split at h
  · next tail =>
    cases h
    exact ⟨_, .comma, .single (t := .mark ",") ⟨by decide, rfl⟩⟩
  · next tail =>
    cases h
    exact ⟨_, .semicolon, .single (t := .mark ";") ⟨by decide, rfl⟩⟩
  · cases h
    exact ⟨_, .absent, .nil _⟩

/-- A keyword read as a whole is a name. -/
theorem word_eq_some_takes {text : String} (hn : isName text.toList = true) {cs rest : List Char}
    {u : Unit} : word text cs = some (u, rest) ↔
      ∃ after, (Token.name text).Takes cs after ∧ rest = skip after := by
  unfold word
  constructor
  · intro h
    split at h
    · next ht =>
      cases h
      refine ⟨_, ⟨hn, stops_dropWhile _ _, ?_⟩, rfl⟩
      rw [← ht, List.takeWhile_append_dropWhile]
    · cases h
  · rintro ⟨after, ⟨-, hs, rfl⟩, rfl⟩
    have hall := isNameChar_of_isName hn
    rw [takeWhile_append_stop hall hs, dropWhile_append_stop hall hs, if_pos rfl]

theorem word_spelling {text : String} (hn : isName text.toList = true) :
    Spelling (word text) fun _ ts => ts = [.name text] := by
  intro cs u rest h
  obtain ⟨after, ht, rfl⟩ := (word_eq_some_takes hn).mp h
  exact ⟨_, rfl, .single ht⟩

theorem Spelling.maybe {p : Reader α} {P : α → List Token → Prop} (hp : Spelling p P) :
    Spelling (maybe p) (Perhaps P) := by
  intro cs o rest h
  rcases maybe_eq_some h with ⟨rfl, rfl, -⟩ | ⟨a, rfl, ha⟩
  · exact ⟨_, .absent, .nil _⟩
  · obtain ⟨ts, hts, hr⟩ := hp ha
    exact ⟨ts, .present hts, hr⟩

theorem Spelling.manyUpTo {p : Reader α} {P : α → List Token → Prop} (hp : Spelling p P)
    (n : Nat) : Spelling (manyUpTo p n) (Row P) := by
  induction n with
  | zero =>
    intro cs as rest h
    cases h
    exact ⟨_, .nil, .nil _⟩
  | succ n ih =>
    intro cs as rest h
    rw [Reader.manyUpTo] at h
    split at h
    · next a mid ha =>
      obtain ⟨⟨tail, r⟩, ht, he⟩ := Option.map_eq_some_iff.mp h
      cases he
      obtain ⟨ts, hts, hr⟩ := hp ha
      obtain ⟨us, hus, hu⟩ := ih ht
      exact ⟨_, .cons hts hus, hr.append hu⟩
    · cases h
      exact ⟨_, .nil, .nil _⟩

theorem Spelling.many {p : Reader α} {P : α → List Token → Prop} (hp : Spelling p P) :
    Spelling (many p) (Row P) := fun _ _ _ h => hp.manyUpTo _ h

/-- A part and its separator. -/
theorem Spelling.ended {p : Reader α} {P : α → List Token → Prop} (hp : Spelling p P) :
    Spelling (do let a ← p; separator; pure a) (Ended P) := by
  intro cs a rest h
  simp only [bind_eq_some, pure_apply, Option.some.injEq, Prod.mk.injEq] at h
  obtain ⟨a, mid, ha, u, r, hs, rfl, rfl⟩ := h
  obtain ⟨ts, hts, hr⟩ := hp ha
  obtain ⟨sep, hsep, hu⟩ := separator_spelling hs
  exact ⟨_, ⟨ts, sep, hts, hsep, rfl⟩, hr.append hu⟩

/-- Parts between marks, each with its separator. -/
theorem Spelling.enclosed {p : Reader α} {P : α → List Token → Prop} (hp : Spelling p (Ended P))
    {opening closing : String} (ho : isMark opening.toList = true)
    (hc : isMark closing.toList = true) {cs mid mid' rest : List Char} {as : List α} {u v : Unit}
    (h₁ : token opening cs = some (u, mid)) (h₂ : Reader.many p mid = some (as, mid'))
    (h₃ : token closing mid' = some (v, rest)) :
    ∃ ts, Enclosed opening P closing as ts ∧ Run cs ts rest := by
  obtain ⟨_, rfl, r₁⟩ := token_spelling ho h₁
  obtain ⟨ts, hts, r₂⟩ := hp.many h₂
  obtain ⟨_, rfl, r₃⟩ := token_spelling hc h₃
  exact ⟨_, ⟨ts, items_iff_row.mpr hts, rfl⟩, r₁.append (r₂.append r₃)⟩

theorem annotation_spelling : Spelling annotation fun a ts => ts = a.tokens := by
  intro cs a rest h
  simp only [ annotation, bind_eq_some, pure_apply, Option.some.injEq, Prod.mk.injEq] at h
  obtain ⟨n, mid, h₁, value, r, h₂, rfl, rfl⟩ := h
  obtain ⟨_, rfl, r₁⟩ := identifier_spelling h₁
  rcases maybe_eq_some h₂ with ⟨rfl, rfl, -⟩ | ⟨text, rfl, hv⟩
  · exact ⟨_, rfl, r₁⟩
  · obtain ⟨u, mid', h₃, h₄⟩ := bind_eq_some.mp hv
    obtain ⟨_, rfl, r₃⟩ := token_spelling (by decide) h₃
    obtain ⟨_, rfl, r₄⟩ := quoted_spelling h₄
    exact ⟨_, rfl, r₁.append (r₃.append r₄)⟩

theorem annotations_spelling : Spelling annotations AnnotationsSpell := by
  intro cs as rest h
  simp only [annotations, bind_eq_some, pure_apply, Option.some.injEq, Prod.mk.injEq] at h
  obtain ⟨u, mid, h₁, as, mid', h₂, v, r, h₃, rfl, rfl⟩ := h
  exact annotation_spelling.ended.enclosed (by decide) (by decide) h₁ h₂ h₃

theorem dropped_spelling : Spelling (maybe annotations) fun _ ts => Dropped ts := by
  intro cs as rest h
  obtain ⟨ts, hts, hr⟩ := annotations_spelling.maybe h
  exact ⟨ts, ⟨as, hts⟩, hr⟩

theorem foreign_spelling : Spelling (maybe foreignType) fun _ ts => Foreign ts := by
  intro cs o rest h
  rcases maybe_eq_some h with ⟨-, rfl, -⟩ | ⟨u, -, h⟩
  · exact ⟨_, .absent, .nil _⟩
  · simp only [foreignType, bind_eq_some, pure_apply, Option.some.injEq, Prod.mk.injEq] at h
    obtain ⟨_, mid, h₁, text, r, h₂, -, rfl⟩ := h
    obtain ⟨_, rfl, r₁⟩ := token_spelling (by decide) h₁
    obtain ⟨_, rfl, r₂⟩ := quoted_spelling h₂
    exact ⟨_, .present text, r₁.append r₂⟩

theorem baseType_eq_some {cs rest : List Char} {b : BaseType} :
    baseType cs = some (b, rest) ↔
      BaseType.ofName? (String.ofList (cs.takeWhile isNameChar)) = some b ∧
        rest = skip (cs.dropWhile isNameChar) := by
  unfold baseType
  split
  · next b' hb => simp [hb, eq_comm]
  · next hb => simp [hb]

theorem ofName?_eq_some {n : String} {b : BaseType} :
    BaseType.ofName? n = some b ↔ n = b.name := by
  constructor
  · intro h
    have hb := List.find?_some h
    exact (beq_iff_eq.mp hb).symm
  · rintro rfl
    cases b <;> decide

theorem isName_baseName (b : BaseType) : isName b.name.toList = true := by
  cases b <;> decide

theorem baseType_spelling : Spelling baseType fun b ts => ts = [.name b.name] := by
  intro cs b rest h
  obtain ⟨hb, rfl⟩ := baseType_eq_some.mp h
  have ht := congrArg String.toList (ofName?_eq_some.mp hb)
  rw [String.toList_ofList] at ht
  refine ⟨_, rfl, .single ⟨isName_baseName b, stops_dropWhile _ _, ?_⟩⟩
  rw [← ht, List.takeWhile_append_dropWhile]

theorem container_spelling {p : Reader FieldType} {P : FieldType → List Token → Prop}
    (hp : Spelling p P) : Spelling (container p) (ContainerSpells P) := by
  have mark {text : String} (hm : isMark text.toList = true) := token_spelling hm
  intro cs t rest h
  rcases either_eq_some h with h | ⟨-, h⟩
  · simp only [bind_eq_some, pure_apply, Option.some.injEq, Prod.mk.injEq] at h
    obtain ⟨_, _, h₁, _, _, h₂, _, _, h₃, k, _, h₄, _, _, h₅, v, _, h₆, _, _, h₇, rfl, rfl⟩ := h
    obtain ⟨_, rfl, r₁⟩ := mark (by decide) h₁
    obtain ⟨fs, hf, r₂⟩ := foreign_spelling h₂
    obtain ⟨_, rfl, r₃⟩ := mark (by decide) h₃
    obtain ⟨ks, hk, r₄⟩ := hp h₄
    obtain ⟨_, rfl, r₅⟩ := mark (by decide) h₅
    obtain ⟨vs, hv, r₆⟩ := hp h₆
    obtain ⟨_, rfl, r₇⟩ := mark (by decide) h₇
    exact ⟨_, .map hk hv hf,
      r₁.append (r₂.append (r₃.append (r₄.append (r₅.append (r₆.append r₇)))))⟩
  · rcases either_eq_some h with h | ⟨-, h⟩
    · simp only [bind_eq_some, pure_apply, Option.some.injEq, Prod.mk.injEq] at h
      obtain ⟨_, _, h₁, _, _, h₂, _, _, h₃, t, _, h₄, _, _, h₅, rfl, rfl⟩ := h
      obtain ⟨_, rfl, r₁⟩ := mark (by decide) h₁
      obtain ⟨fs, hf, r₂⟩ := foreign_spelling h₂
      obtain ⟨_, rfl, r₃⟩ := mark (by decide) h₃
      obtain ⟨ts, ht, r₄⟩ := hp h₄
      obtain ⟨_, rfl, r₅⟩ := mark (by decide) h₅
      exact ⟨_, .set ht hf, r₁.append (r₂.append (r₃.append (r₄.append r₅)))⟩
    · simp only [bind_eq_some, pure_apply, Option.some.injEq, Prod.mk.injEq] at h
      obtain ⟨_, _, h₁, _, _, h₂, t, _, h₃, _, _, h₄, _, _, h₅, rfl, rfl⟩ := h
      obtain ⟨_, rfl, r₁⟩ := mark (by decide) h₁
      obtain ⟨_, rfl, r₂⟩ := mark (by decide) h₂
      obtain ⟨ts, ht, r₃⟩ := hp h₃
      obtain ⟨_, rfl, r₄⟩ := mark (by decide) h₄
      obtain ⟨fs, hf, r₅⟩ := foreign_spelling h₅
      exact ⟨_, .list ht hf, r₁.append (r₂.append (r₃.append (r₄.append r₅)))⟩

theorem takeWhile_name {cs rest : List Char} {n : String} {ts : List Token}
    (h : Run cs (.name n :: ts) rest) : cs.takeWhile isNameChar = n.toList := by
  obtain ⟨after, ⟨hn, hs, rfl⟩, -⟩ := h.cons_inv
  exact takeWhile_append_stop (isNameChar_of_isName hn) hs

/-- A word that is the name in front is read. -/
theorem word_of_name {cs rest : List Char} {n : String} {ts : List Token}
    (h : Run cs (.name n :: ts) rest) : word n cs ≠ none := by
  rw [word, if_pos (takeWhile_name h)]
  simp

theorem fieldTypeUpTo_spelling (depth : Nat) :
    Spelling (fieldTypeUpTo depth) FieldType.Spells := by
  induction depth with
  | zero =>
    intro cs t rest h
    cases h
  | succ depth ih =>
    intro cs t rest h
    rcases either_eq_some h with h | ⟨hn, h⟩
    · simp only [bind_eq_some, pure_apply, Option.some.injEq, Prod.mk.injEq] at h
      obtain ⟨t, mid, ht, _, _, hd, rfl, rfl⟩ := h
      obtain ⟨ns, hns, r₂⟩ := dropped_spelling hd
      rcases either_eq_some ht with ht | ⟨-, ht⟩
      · rw [map_apply] at ht
        obtain ⟨⟨b, _⟩, hb, he⟩ := Option.map_eq_some_iff.mp ht
        cases he
        obtain ⟨_, rfl, r₁⟩ := baseType_spelling hb
        exact ⟨_, .base b hns, r₁.append r₂⟩
      · obtain ⟨ts, hts, r₁⟩ := container_spelling ih ht
        exact ⟨_, .container hts hns, r₁.append r₂⟩
    · rw [map_apply] at h
      obtain ⟨⟨n, _⟩, hi, he⟩ := Option.map_eq_some_iff.mp h
      cases he
      obtain ⟨_, rfl, r⟩ := identifier_spelling hi
      refine ⟨_, .named ?_, r⟩
      cases hb : BaseType.ofName? n with
      | none => rfl
      | some b =>
        have hw : baseType cs = some (b, skip (cs.dropWhile isNameChar)) := by
          rw [baseType_eq_some, takeWhile_name r, String.ofList_toList]
          exact ⟨hb, rfl⟩
        obtain ⟨o, after, hm⟩ := maybe_total annotations (skip (cs.dropWhile isNameChar))
        rw [bind_of_some (either_of_some (by rw [map_apply, hw]; rfl)), bind_of_some hm] at hn
        cases hn

theorem fieldType_spelling : Spelling fieldType FieldType.Spells :=
  fun _ _ _ h => fieldTypeUpTo_spelling _ h

theorem truth_spelling : Spelling truth fun b ts => ts = [.name (truthWord b)] := by
  intro cs b rest h
  rcases either_eq_some h with h | ⟨-, h⟩
  all_goals
    obtain ⟨_, _, hw, he⟩ := bind_eq_some.mp h
    cases he
    exact word_spelling (by decide) hw

/-- A name that is read as no truth value is the word of none. -/
theorem ne_truthWord {cs rest : List Char} {n : String} {ts : List Token}
    (h : Run cs (.name n :: ts) rest) (hn : truth cs = none) (b : Bool) : n ≠ truthWord b := by
  rintro rfl
  obtain ⟨ht, hf⟩ := either_eq_none.mp hn
  cases b with
  | true => exact word_of_name h (bind_pure_eq_none.mp ht)
  | false => exact word_of_name h (bind_pure_eq_none.mp hf)

theorem constEntry_spelling {p : Reader ConstExpr} {P : ConstExpr → List Token → Prop}
    (hp : Spelling p P) : Spelling (constEntry p) (Entry P) := by
  rintro cs ⟨k, v⟩ rest h
  simp only [constEntry, bind_eq_some, pure_apply, Option.some.injEq, Prod.mk.injEq] at h
  obtain ⟨_, _, h₁, _, _, h₂, _, _, h₃, ⟨rfl, rfl⟩, rfl⟩ := h
  obtain ⟨ks, hk, r₁⟩ := hp h₁
  obtain ⟨_, rfl, r₂⟩ := token_spelling (by decide) h₂
  obtain ⟨vs, hv, r₃⟩ := hp h₃
  exact ⟨_, .mk hk hv, r₁.append (r₂.append r₃)⟩

theorem int_spelling {cs rest : List Char} {text : String} (hd : double cs = none)
    (h : int cs = some (text, rest)) : Run cs [.int text] rest := by
  obtain ⟨after, ht, rfl⟩ := int_eq_some_takes.mp h
  exact .single ⟨double_eq_none.mp hd, ht⟩

theorem map_eq_some {β : Type} {f : α → β} {p : Reader α} {cs rest : List Char} {b : β} :
    (f <$> p) cs = some (b, rest) ↔ ∃ a, p cs = some (a, rest) ∧ f a = b := by
  rw [map_apply]
  simp [Option.map_eq_some_iff]

theorem map_eq_none {β : Type} {f : α → β} {p : Reader α} {cs : List Char} :
    (f <$> p) cs = none ↔ p cs = none := by
  rw [map_apply, Option.map_eq_none_iff]

theorem constUpTo_spelling (depth : Nat) : Spelling (constUpTo depth) ConstExpr.Spells := by
  induction depth with
  | zero =>
    intro cs e rest h
    cases h
  | succ depth ih =>
    intro cs e rest h
    rcases either_eq_some h with h | ⟨hd, h⟩
    · obtain ⟨text, ht, rfl⟩ := map_eq_some.mp h
      obtain ⟨_, rfl, r⟩ := double_spelling ht
      exact ⟨_, .double text, r⟩
    rcases either_eq_some h with h | ⟨-, h⟩
    · obtain ⟨text, ht, rfl⟩ := map_eq_some.mp h
      exact ⟨_, .int text, int_spelling (map_eq_none.mp hd) ht⟩
    rcases either_eq_some h with h | ⟨hb, h⟩
    · obtain ⟨b, ht, rfl⟩ := map_eq_some.mp h
      obtain ⟨_, rfl, r⟩ := truth_spelling ht
      exact ⟨_, .bool b, r⟩
    rcases either_eq_some h with h | ⟨-, h⟩
    · obtain ⟨text, ht, rfl⟩ := map_eq_some.mp h
      obtain ⟨_, rfl, r⟩ := quoted_spelling ht
      exact ⟨_, .string text, r⟩
    rcases either_eq_some h with h | ⟨-, h⟩
    · simp only [bind_eq_some, pure_apply, Option.some.injEq, Prod.mk.injEq] at h
      obtain ⟨_, _, h₁, _, _, h₂, _, _, h₃, rfl, rfl⟩ := h
      obtain ⟨_, ⟨us, hu, rfl⟩, r⟩ := ih.ended.enclosed (by decide) (by decide) h₁ h₂ h₃
      exact ⟨_, .list hu, r⟩
    rcases either_eq_some h with h | ⟨-, h⟩
    · simp only [bind_eq_some, pure_apply, Option.some.injEq, Prod.mk.injEq] at h
      obtain ⟨_, _, h₁, _, _, h₂, _, _, h₃, rfl, rfl⟩ := h
      have he := constEntry_spelling ih
      obtain ⟨_, ⟨us, hu, rfl⟩, r⟩ := he.ended.enclosed (by decide) (by decide) h₁ h₂ h₃
      exact ⟨_, .map hu, r⟩
    · obtain ⟨n, hn, rfl⟩ := map_eq_some.mp h
      obtain ⟨_, rfl, r⟩ := identifier_spelling hn
      exact ⟨_, .identifier (ne_truthWord r (map_eq_none.mp hb)), r⟩

theorem constValue_spelling : Spelling constValue ConstExpr.Spells :=
  fun _ _ _ h => constUpTo_spelling _ h

theorem assigned_spelling {p : Reader α} {P : α → List Token → Prop} (hp : Spelling p P) :
    Spelling (do token "="; p) (Assigned P) := by
  intro cs a rest h
  obtain ⟨_, _, h₁, h₂⟩ := bind_eq_some.mp h
  obtain ⟨_, rfl, r₁⟩ := token_spelling (by decide) h₁
  obtain ⟨ts, ht, r₂⟩ := hp h₂
  exact ⟨_, ⟨ts, ht, rfl⟩, r₁.append r₂⟩

theorem id_spelling : Spelling (maybe do let text ← int; token ":"; pure text)
    fun text ts => IdSpells (text.bind intValue?) ts := by
  intro cs o rest h
  rcases maybe_eq_some h with ⟨rfl, rfl, -⟩ | ⟨text, rfl, hid⟩
  · exact ⟨_, .absent, .nil _⟩
  · simp only [bind_eq_some, pure_apply, Option.some.injEq, Prod.mk.injEq] at hid
    obtain ⟨text, _, h₁, _, _, h₂, rfl, rfl⟩ := hid
    obtain ⟨_, rfl, r₁⟩ := index_spelling h₁
    obtain ⟨_, rfl, r₂⟩ := token_spelling (by decide) h₂
    exact ⟨_, .present rfl, r₁.append r₂⟩

theorem requiredness_spelling :
    Spelling requiredness fun r ts => ts = r.tokens ∧ r ≠ .default := by
  intro cs r rest h
  rcases either_eq_some h with h | ⟨-, h⟩
  all_goals
    obtain ⟨_, _, hw, he⟩ := bind_eq_some.mp h
    cases he
    obtain ⟨ts, ht, run⟩ := word_spelling (by decide) hw
    exact ⟨ts, ⟨ht, by decide⟩, run⟩

/-- A name in front that is read as no requiredness is neither of its words. -/
theorem ne_requiredness {cs rest : List Char} {n : String} {ts : List Token}
    (h : Run cs (.name n :: ts) rest) (hn : requiredness cs = none) :
    n ≠ "required" ∧ n ≠ "optional" := by
  obtain ⟨hreq, hopt⟩ := either_eq_none.mp hn
  constructor
  · rintro rfl
    exact word_of_name h (bind_pure_eq_none.mp hreq)
  · rintro rfl
    exact word_of_name h (bind_pure_eq_none.mp hopt)

theorem spells_named {n : String} {ts : List Token} (h : (FieldType.named n).Spells ts) :
    ts = [.name n] ∧ BaseType.ofName? n = none := by
  cases h with
  | container hc _ => cases hc
  | named hb => exact ⟨rfl, hb⟩

/-- A requiredness that is left out stands for the default one, and no type that starts like one
follows. -/
theorem perhaps_requiredness {cs mid rest : List Char} {o : Option Requiredness} {t : FieldType}
    {ts : List Token} (h : maybe requiredness cs = some (o, mid)) (ht : t.Spells ts)
    (hr : Run mid ts rest) :
    Run cs (o.getD .default).tokens mid ∧
      (o.getD .default = .default → t ≠ .named "required" ∧ t ≠ .named "optional") := by
  rcases maybe_eq_some h with ⟨rfl, rfl, hn⟩ | ⟨r, rfl, hq⟩
  · refine ⟨.nil _, fun _ => ⟨?_, ?_⟩⟩
    · rintro rfl
      obtain ⟨rfl, -⟩ := spells_named ht
      exact (ne_requiredness hr hn).1 rfl
    · rintro rfl
      obtain ⟨rfl, -⟩ := spells_named ht
      exact (ne_requiredness hr hn).2 rfl
  · obtain ⟨_, ⟨rfl, hne⟩, run⟩ := requiredness_spelling hq
    exact ⟨run, fun he => absurd he hne⟩

theorem field_spelling : Spelling field (Ended FieldDef.Spells) := by
  intro cs f rest h
  simp only [field, bind_eq_some, pure_apply, Option.some.injEq, Prod.mk.injEq] at h
  obtain ⟨id, _, h₁, o, _, h₂, t, _, h₃, n, _, h₄, d, _, h₅, notes, _, h₆, _, _, h₇, rfl, rfl⟩ := h
  obtain ⟨is, hi, r₁⟩ := id_spelling h₁
  obtain ⟨ts, ht, r₃⟩ := fieldType_spelling h₃
  obtain ⟨r₂, hr⟩ := perhaps_requiredness h₂ ht r₃
  obtain ⟨_, rfl, r₄⟩ := identifier_spelling h₄
  obtain ⟨ds, hd, r₅⟩ := (assigned_spelling constValue_spelling).maybe h₅
  obtain ⟨ns, hn, r₆⟩ := annotations_spelling.maybe h₆
  obtain ⟨sep, hs, r₇⟩ := separator_spelling h₇
  refine ⟨_, ⟨_, sep, .mk hi hr ht hd hn, hs, rfl⟩, ?_⟩
  have run := r₁.append (r₂.append (r₃.append (r₄.append (r₅.append r₆))))
  exact run.append r₇

theorem structBody_spelling {keyword : String} (hk : isMark keyword.toList = true) :
    Spelling (structBody keyword) (StructDef.Spells keyword) := by
  intro cs s rest h
  simp only [structBody, bind_eq_some, pure_apply, Option.some.injEq, Prod.mk.injEq] at h
  obtain ⟨_, _, h₁, n, _, h₂, _, _, h₃, fields, _, h₄, _, _, h₅, notes, _, h₆, rfl, rfl⟩ := h
  obtain ⟨_, rfl, r₁⟩ := token_spelling hk h₁
  obtain ⟨_, rfl, r₂⟩ := identifier_spelling h₂
  obtain ⟨fs, hf, r₃⟩ := field_spelling.enclosed (by decide) (by decide) h₃ h₄ h₅
  obtain ⟨ns, hn, r₄⟩ := annotations_spelling.maybe h₆
  exact ⟨_, ⟨fs, ns, notes, hf, hn, rfl, rfl⟩, r₁.append (r₂.append (r₃.append r₄))⟩

theorem enumMember_spelling : Spelling enumMember EnumMember.Spells := by
  intro cs m rest h
  simp only [enumMember, bind_eq_some, pure_apply, Option.some.injEq, Prod.mk.injEq] at h
  obtain ⟨n, _, h₁, text, _, h₂, _, _, h₃, rfl, rfl⟩ := h
  obtain ⟨_, rfl, r₁⟩ := identifier_spelling h₁
  obtain ⟨vs, hv, r₂⟩ := (assigned_spelling index_spelling).maybe h₂
  obtain ⟨ns, hn, r₃⟩ := dropped_spelling h₃
  exact ⟨_, ⟨text, vs, ns, hv, hn, rfl, rfl⟩, r₁.append (r₂.append r₃)⟩

theorem enumDef_spelling : Spelling enumDef Definition.Spells := by
  intro cs d rest h
  simp only [enumDef, bind_eq_some, pure_apply, Option.some.injEq, Prod.mk.injEq] at h
  obtain ⟨_, _, h₁, n, _, h₂, _, _, h₃, members, _, h₄, _, _, h₅, _, _, h₆, rfl, rfl⟩ := h
  obtain ⟨_, rfl, r₁⟩ := token_spelling (by decide) h₁
  obtain ⟨_, rfl, r₂⟩ := identifier_spelling h₂
  obtain ⟨ms, hm, r₃⟩ := enumMember_spelling.ended.enclosed (by decide) (by decide) h₃ h₄ h₅
  obtain ⟨ns, hn, r₄⟩ := dropped_spelling h₆
  exact ⟨_, .enum hm hn, r₁.append (r₂.append (r₃.append r₄))⟩

/-- The reader of what a function may throw. -/
def throwsClause : Reader (List FieldDef) := do
  token "throws"
  token "("
  let fields ← many field
  token ")"
  pure fields

theorem throws_spelling : Spelling throwsClause ThrowsSpell := by
  intro cs fields rest h
  simp only [throwsClause, bind_eq_some, pure_apply, Option.some.injEq, Prod.mk.injEq] at h
  obtain ⟨_, _, h₁, _, _, h₂, fields, _, h₃, _, _, h₄, rfl, rfl⟩ := h
  obtain ⟨_, rfl, r₁⟩ := token_spelling (by decide) h₁
  obtain ⟨us, hu, r₂⟩ := field_spelling.enclosed (by decide) (by decide) h₂ h₃ h₄
  exact ⟨_, ⟨us, hu, rfl⟩, r₁.append r₂⟩

/-- Where the mark of a function without an answer is left out, no type that starts like it
follows. -/
theorem perhaps_oneway {cs mid rest : List Char} {o : Option Unit} {t : FieldType}
    {ts : List Token} (h : maybe (word "oneway") cs = some (o, mid)) (ht : t.Spells ts)
    (hr : Run mid ts rest) :
    Run cs (onewayTokens o.isSome) mid ∧ (o.isSome = false → t ≠ .named "oneway") := by
  rcases maybe_eq_some h with ⟨rfl, rfl, hn⟩ | ⟨u, rfl, hw⟩
  · refine ⟨.nil _, fun _ => ?_⟩
    rintro rfl
    obtain ⟨rfl, -⟩ := spells_named ht
    exact word_of_name hr hn
  · obtain ⟨_, rfl, run⟩ := word_spelling (by decide) hw
    exact ⟨run, by simp⟩

theorem function_spelling : Spelling function Function.Spells := by
  intro cs f rest h
  simp only [function, bind_eq_some, pure_apply, Option.some.injEq, Prod.mk.injEq] at h
  obtain ⟨o, _, h₁, t, _, h₂, n, _, h₃, _, _, h₄, params, _, h₅, _, _, h₆, throws, _, h₇, _, _,
    h₈, rfl, rfl⟩ := h
  obtain ⟨ts, ht, r₂⟩ := fieldType_spelling h₂
  obtain ⟨r₁, ho⟩ := perhaps_oneway h₁ ht r₂
  obtain ⟨_, rfl, r₃⟩ := identifier_spelling h₃
  obtain ⟨ps, hp, r₄⟩ := field_spelling.enclosed (by decide) (by decide) h₄ h₅ h₆
  obtain ⟨es, he, r₅⟩ := throws_spelling.maybe h₇
  obtain ⟨ns, hn, r₆⟩ := dropped_spelling h₈
  exact ⟨_, .mk ho ht hp he rfl hn,
    r₁.append (r₂.append (r₃.append (r₄.append (r₅.append r₆))))⟩

theorem extends_spelling : Spelling (do token "extends"; identifier) ExtendsSpell := by
  intro cs base rest h
  obtain ⟨_, _, h₁, h₂⟩ := bind_eq_some.mp h
  obtain ⟨_, rfl, r₁⟩ := token_spelling (by decide) h₁
  obtain ⟨_, rfl, r₂⟩ := identifier_spelling h₂
  exact ⟨_, rfl, r₁.append r₂⟩

theorem serviceDef_spelling : Spelling serviceDef Definition.Spells := by
  intro cs d rest h
  simp only [serviceDef, bind_eq_some, pure_apply, Option.some.injEq, Prod.mk.injEq] at h
  obtain ⟨_, _, h₁, n, _, h₂, base, _, h₃, _, _, h₄, functions, _, h₅, _, _, h₆, _, _, h₇, rfl,
    rfl⟩ := h
  obtain ⟨_, rfl, r₁⟩ := token_spelling (by decide) h₁
  obtain ⟨_, rfl, r₂⟩ := identifier_spelling h₂
  obtain ⟨bs, hb, r₃⟩ := extends_spelling.maybe h₃
  obtain ⟨fs, hf, r₄⟩ := function_spelling.ended.enclosed (by decide) (by decide) h₄ h₅ h₆
  obtain ⟨ns, hn, r₅⟩ := dropped_spelling h₇
  exact ⟨_, .service hb hf hn, r₁.append (r₂.append (r₃.append (r₄.append r₅)))⟩

theorem constDef_spelling : Spelling constDef Definition.Spells := by
  intro cs d rest h
  simp only [constDef, bind_eq_some, pure_apply, Option.some.injEq, Prod.mk.injEq] at h
  obtain ⟨_, _, h₁, t, _, h₂, n, _, h₃, _, _, h₄, e, _, h₅, rfl, rfl⟩ := h
  obtain ⟨_, rfl, r₁⟩ := token_spelling (by decide) h₁
  obtain ⟨ts, ht, r₂⟩ := fieldType_spelling h₂
  obtain ⟨_, rfl, r₃⟩ := identifier_spelling h₃
  obtain ⟨_, rfl, r₄⟩ := token_spelling (by decide) h₄
  obtain ⟨es, he, r₅⟩ := constValue_spelling h₅
  exact ⟨_, .const ht he, r₁.append (r₂.append (r₃.append (r₄.append r₅)))⟩

theorem typedefDef_spelling : Spelling typedefDef Definition.Spells := by
  intro cs d rest h
  simp only [typedefDef, bind_eq_some, pure_apply, Option.some.injEq, Prod.mk.injEq] at h
  obtain ⟨_, _, h₁, t, _, h₂, n, _, h₃, _, _, h₄, rfl, rfl⟩ := h
  obtain ⟨_, rfl, r₁⟩ := token_spelling (by decide) h₁
  obtain ⟨ts, ht, r₂⟩ := fieldType_spelling h₂
  obtain ⟨_, rfl, r₃⟩ := identifier_spelling h₃
  obtain ⟨ns, hn, r₄⟩ := dropped_spelling h₄
  exact ⟨_, .typedef ht hn, r₁.append (r₂.append (r₃.append r₄))⟩

theorem definition_spelling : Spelling definition (Ended Definition.Spells) := by
  apply Spelling.ended
  intro cs d rest h
  rcases either_eq_some h with h | ⟨-, h⟩
  · exact constDef_spelling h
  rcases either_eq_some h with h | ⟨-, h⟩
  · exact typedefDef_spelling h
  rcases either_eq_some h with h | ⟨-, h⟩
  · exact enumDef_spelling h
  rcases either_eq_some h with h | ⟨-, h⟩
  · obtain ⟨s, hs, rfl⟩ := map_eq_some.mp h
    obtain ⟨ts, ht, r⟩ := structBody_spelling (by decide) hs
    exact ⟨ts, .struct ht, r⟩
  rcases either_eq_some h with h | ⟨-, h⟩
  · obtain ⟨s, hs, rfl⟩ := map_eq_some.mp h
    obtain ⟨ts, ht, r⟩ := structBody_spelling (by decide) hs
    exact ⟨ts, .union ht, r⟩
  rcases either_eq_some h with h | ⟨-, h⟩
  · obtain ⟨s, hs, rfl⟩ := map_eq_some.mp h
    obtain ⟨ts, ht, r⟩ := structBody_spelling (by decide) hs
    exact ⟨ts, .exception ht, r⟩
  · exact serviceDef_spelling h

theorem scope_spelling : Spelling scope fun s ts => ts = [scopeToken s] := by
  intro cs s rest h
  rcases either_eq_some h with h | ⟨-, h⟩
  · obtain ⟨_, _, hs, he⟩ := bind_eq_some.mp h
    cases he
    exact token_spelling (by decide) hs
  · obtain ⟨_, rfl, r⟩ := identifier_spelling h
    obtain ⟨after, ⟨hn, -⟩, -⟩ := r.cons_inv
    refine ⟨_, rfl, ?_⟩
    rw [scopeToken, if_neg]
    · exact r
    · rintro rfl
      exact absurd hn (by decide)

theorem header_spelling : Spelling header Header.Spells := by
  intro cs hd rest h
  rcases either_eq_some h with h | ⟨-, h⟩
  · obtain ⟨_, _, h₁, h₂⟩ := bind_eq_some.mp h
    obtain ⟨path, hq, rfl⟩ := map_eq_some.mp h₂
    obtain ⟨_, rfl, r₁⟩ := token_spelling (by decide) h₁
    obtain ⟨_, rfl, r₂⟩ := quoted_spelling hq
    exact ⟨_, .cppInclude path, r₁.append r₂⟩
  rcases either_eq_some h with h | ⟨-, h⟩
  · obtain ⟨_, _, h₁, h₂⟩ := bind_eq_some.mp h
    obtain ⟨path, hq, rfl⟩ := map_eq_some.mp h₂
    obtain ⟨_, rfl, r₁⟩ := token_spelling (by decide) h₁
    obtain ⟨_, rfl, r₂⟩ := quoted_spelling hq
    exact ⟨_, .include path, r₁.append r₂⟩
  · simp only [bind_eq_some, pure_apply, Option.some.injEq, Prod.mk.injEq] at h
    obtain ⟨_, _, h₁, s, _, h₂, n, _, h₃, _, _, h₄, rfl, rfl⟩ := h
    obtain ⟨_, rfl, r₁⟩ := token_spelling (by decide) h₁
    obtain ⟨_, rfl, r₂⟩ := scope_spelling h₂
    obtain ⟨_, rfl, r₃⟩ := identifier_spelling h₃
    obtain ⟨ns, hn, r₄⟩ := dropped_spelling h₄
    exact ⟨_, .ns hn, r₁.append (r₂.append (r₃.append r₄))⟩

theorem document_spelling : Spelling document Document.Spells := by
  intro cs d rest h
  simp only [document, bind_eq_some, pure_apply, Option.some.injEq, Prod.mk.injEq] at h
  obtain ⟨headers, _, h₁, definitions, _, h₂, rfl, rfl⟩ := h
  obtain ⟨hs, hh, r₁⟩ := header_spelling.many h₁
  obtain ⟨ds, hd, r₂⟩ := definition_spelling.many h₂
  exact ⟨_, .mk hh (items_iff_row.mpr hd), r₁.append r₂⟩

end SchemaGen.Idl
