import SchemaGen.Proofs.Json.NumberText
import SchemaGen.Proofs.Json.QuotedText

namespace SchemaGen.Json

open Numeric Text

/- What a printed value is read as. -/
mutual

def reread : Json → Json
  | null => null
  | bool b => bool b
  | natural n => readNumber (decimalDigits n)
  | number n => readNumber (numberText n).toList
  | string s => string s
  | array items => array (rereadItems items)
  | object members => object (rereadMembers members)
  | invalid => null

def rereadItems : List Json → List Json
  | [] => []
  | item :: rest => reread item :: rereadItems rest

def rereadMembers : List (String × Json) → List (String × Json)
  | [] => []
  | (key, value) :: rest => (key, reread value) :: rereadMembers rest

end

theorem rereadMembers_eq_map (members : List (String × Json)) :
    rereadMembers members = members.map fun m => (m.1, reread m.2) := by
  induction members with
  | nil => rfl
  | cons m members ih => rw [rereadMembers, ih, List.map_cons]

theorem joinWith_cons (separator t u : String) (texts : List String) :
    joinWith separator (t :: u :: texts) = t ++ separator ++ joinWith separator (u :: texts) := rfl

theorem print_array (items : List Json) :
    (print (array items)).toList = '[' :: ((joinWith "," (printItems items)).toList ++ [']']) := by
  simp [print]

theorem print_object (members : List (String × Json)) :
    (print (object members)).toList =
      '\x7b' :: ((joinWith "," (printMembers members)).toList ++ ['\x7d']) := by
  simp [print]

/-- The first character of a value, which is no blank and closes nothing. -/
def startsValue (c : Char) : Bool :=
  isDigit c || ['-', 'n', 't', 'f', '"', '[', '\x7b'].contains c

theorem startsValue_signed (negative : Bool) {cs : List Char} (h : IsNumeral cs) :
    ∃ c ds, signed negative cs = c :: ds ∧ startsValue c = true := by
  obtain ⟨c, ds, he, hc⟩ := signed_front negative h
  refine ⟨c, ds, he, ?_⟩
  rcases hc with hc | rfl
  · simp [startsValue, hc]
  · decide

theorem print_front (j : Json) :
    ∃ c cs, (print j).toList = c :: cs ∧ startsValue c = true := by
  cases j with
  | null | invalid => exact ⟨'n', _, rfl, by decide⟩
  | bool b => cases b with
    | true => exact ⟨'t', _, rfl, by decide⟩
    | false => exact ⟨'f', _, rfl, by decide⟩
  | natural n =>
    rw [print, String.toList_ofList]
    exact startsValue_signed false (isWhole_decimalDigits n).numeral
  | number n =>
    rw [print]
    cases n with
    | nan | infinity b => exact ⟨'n', ['u', 'l', 'l'], by simp [numberText], by decide⟩
    | finite negative m =>
      rw [numberText_finite]
      exact startsValue_signed negative (isNumeral_magnitudeText m)
  | string s => exact ⟨'"', _, by rw [print, quote_toList], by decide⟩
  | array items => exact ⟨'[', _, print_array items, by decide⟩
  | object members => exact ⟨'\x7b', _, print_object members, by decide⟩

theorem skipBlanks_of_startsValue {c : Char} (h : startsValue c = true) (cs : List Char) :
    skipBlanks (c :: cs) = c :: cs := by
  have hblank : (c == ' ' || c == '\n' || c == '\t' || c == '\r') = false := by
    simp only [startsValue, Bool.or_eq_true] at h
    rcases h with h | h
    · simp only [isDigit, Bool.and_eq_true, decide_eq_true_eq] at h
      rw [Bool.eq_false_iff]
      intro hb
      simp only [Bool.or_eq_true, beq_iff_eq] at hb
      rcases hb with ((rfl | rfl) | rfl) | rfl <;> revert h <;> decide
    · simp only [List.contains_eq_mem, List.mem_cons, List.not_mem_nil, or_false,
        decide_eq_true_eq] at h
      rcases h with rfl | rfl | rfl | rfl | rfl | rfl | rfl <;> decide
  rw [skipBlanks, List.dropWhile_cons_of_neg (by simp [hblank])]

theorem endsNumber_cons {c : Char} (h : isNumberChar c = false) (cs : List Char) :
    EndsNumber (c :: cs) := by
  simp [EndsNumber, Idl.Stops, h]

section Reading

variable {bound : Nat} {rest : List Char}

/-- A value that is read up to whatever ends it. -/
def ReadsBack (j : Json) : Prop :=
  ∀ ⦃bound rest⦄, (print j).toList.length < bound → EndsNumber rest →
    valueUpTo bound ((print j).toList ++ rest) = some (reread j, rest)

theorem readsBack_numeral {j : Json} (negative : Bool) {cs : List Char} (h : IsNumeral cs)
    (hp : (print j).toList = signed negative cs) (hj : reread j = readNumber (signed negative cs)) :
    ReadsBack j := by
  intro bound rest hb hr
  obtain ⟨b, rfl⟩ : ∃ b, bound = b + 1 := ⟨bound - 1, by omega⟩
  rw [hp, hj]
  exact valueUpTo_numeral b negative h hr

theorem readsBack_word {j : Json} (c : Char) (cs : List Char) (hp : (print j).toList = c :: cs)
    (hv : ∀ bound rest, valueUpTo (bound + 1) (c :: (cs ++ rest)) = some (reread j, rest)) :
    ReadsBack j := by
  intro bound rest hb _
  obtain ⟨b, rfl⟩ : ∃ b, bound = b + 1 := ⟨bound - 1, by omega⟩
  rw [hp]
  exact hv b rest

theorem readsBack_null {j : Json} (hp : print j = "null") (hj : reread j = null) :
    ReadsBack j := by
  refine readsBack_word 'n' ['u', 'l', 'l'] (by rw [hp]; rfl) fun bound rest => ?_
  rw [hj]
  simp [valueUpTo, skipBlanks]

theorem skipBlanks_mark {c : Char} (h : [',', ':', ']', '\x7d', '"'].contains c = true)
    (cs : List Char) : skipBlanks (c :: cs) = c :: cs := by
  simp only [List.contains_eq_mem, List.mem_cons, List.not_mem_nil, or_false,
    decide_eq_true_eq] at h
  rcases h with rfl | rfl | rfl | rfl | rfl <;> rfl

/-- An item is read up to the mark after it. -/
theorem itemsUpTo_item {j : Json} (h : ReadsBack j) (hb : (print j).toList.length < bound)
    {c : Char} (hc : c = ',' ∨ c = ']') (cs : List Char) :
    itemsUpTo (bound + 1) ((print j).toList ++ c :: cs) =
      if c = ',' then (itemsUpTo bound cs).map fun (items, rest) => (reread j :: items, rest)
      else some ([reread j], cs) := by
  have hend : EndsNumber (c :: cs) := by
    rcases hc with rfl | rfl <;> exact endsNumber_cons (by decide) cs
  rw [itemsUpTo]
  simp only [h hb hend, Option.bind_eq_bind, Option.bind_some]
  rcases hc with rfl | rfl
  · rw [skipBlanks_mark (by decide)]
    rfl
  · rw [skipBlanks_mark (by decide)]
    rfl

theorem comma_toList : ",".toList = [','] := rfl

theorem itemsUpTo_print {item : Json} {items : List Json} (h : ∀ j ∈ item :: items, ReadsBack j)
    (hb : (joinWith "," (printItems (item :: items))).toList.length + 1 < bound) :
    itemsUpTo bound ((joinWith "," (printItems (item :: items))).toList ++ ']' :: rest) =
      some (rereadItems (item :: items), rest) := by
  obtain ⟨b, rfl⟩ : ∃ b, bound = b + 1 := ⟨bound - 1, by omega⟩
  have hitem : ReadsBack item := h item List.mem_cons_self
  induction items generalizing item b with
  | nil =>
    simp only [printItems, joinWith] at hb ⊢
    rw [itemsUpTo_item hitem (by omega) (.inr rfl)]
    rfl
  | cons next items ih =>
    have hnext : ∀ j ∈ next :: items, ReadsBack j := fun j hj => h j (List.mem_cons_of_mem _ hj)
    simp only [printItems, joinWith_cons] at hb ih ⊢
    rw [String.toList_append, String.toList_append, comma_toList, List.length_append,
      List.length_append, List.length_singleton] at hb
    rw [String.toList_append, String.toList_append, comma_toList, List.append_assoc,
      List.append_assoc, List.singleton_append]
    obtain ⟨b, rfl⟩ : ∃ c, b = c + 1 := ⟨b - 1, by omega⟩
    rw [itemsUpTo_item hitem (by omega) (.inl rfl), if_pos rfl,
      ih hnext b (by omega) (hnext next List.mem_cons_self)]
    rfl

/-- A member as the reader finds it, its key a text. -/
def found (m : String × Json) : Option String × Json := (some m.1, reread m.2)

theorem ofMembers_found (members : List (String × Json)) :
    ofMembers (members.map found) = object (rereadMembers members) := by
  have hm : members.mapM (fun m => some (m.1, reread m.2)) =
      some (members.map fun m => (m.1, reread m.2)) := List.mapM_pure
  simp only [ofMembers, List.mapM_map, Function.comp_def, found, Option.map_some, hm,
    rereadMembers_eq_map]

/-- A member is read up to the mark after it. -/
theorem membersUpTo_member {m : String × Json} (h : ReadsBack m.2)
    (hb : (print m.2).toList.length < bound) {c : Char} (hc : c = ',' ∨ c = '\x7d')
    (cs : List Char) :
    membersUpTo (bound + 1) ((quote m.1 ++ ":" ++ print m.2).toList ++ c :: cs) =
      if c = ',' then (membersUpTo bound cs).map fun (ms, rest) => (found m :: ms, rest)
      else some ([found m], cs) := by
  have hq : (quote m.1 ++ ":" ++ print m.2).toList ++ c :: cs =
      '"' :: (m.1.toList.flatMap escapeChar ++ '"' :: ':' :: ((print m.2).toList ++ c :: cs)) := by
    simp [quote_toList]
  have hend : EndsNumber (c :: cs) := by
    rcases hc with rfl | rfl <;> exact endsNumber_cons (by decide) cs
  rw [hq, membersUpTo, skipBlanks_mark (by decide)]
  simp only [quoted?_escaped, Option.bind_eq_bind, Option.bind_some]
  rw [skipBlanks_mark (by decide)]
  simp only [h hb hend, Option.bind_some]
  rcases hc with rfl | rfl
  · rw [skipBlanks_mark (by decide)]
    rfl
  · rw [skipBlanks_mark (by decide)]
    rfl

theorem membersUpTo_print {m : String × Json} {members : List (String × Json)}
    (h : ∀ n ∈ m :: members, ReadsBack n.2)
    (hb : (joinWith "," (printMembers (m :: members))).toList.length + 1 < bound) :
    membersUpTo bound ((joinWith "," (printMembers (m :: members))).toList ++ '\x7d' :: rest) =
      some ((m :: members).map found, rest) := by
  obtain ⟨b, rfl⟩ : ∃ b, bound = b + 1 := ⟨bound - 1, by omega⟩
  have hm : ReadsBack m.2 := h m List.mem_cons_self
  have hlength (n : String × Json) :
      (print n.2).toList.length ≤ (quote n.1 ++ ":" ++ print n.2).toList.length := by
    simp only [String.toList_append, List.length_append]
    omega
  have hm' := hlength m
  induction members generalizing m b with
  | nil =>
    simp only [printMembers, joinWith] at hb ⊢
    rw [membersUpTo_member hm (by omega) (.inr rfl)]
    rfl
  | cons next members ih =>
    have hnext : ∀ n ∈ next :: members, ReadsBack n.2 :=
      fun n hn => h n (List.mem_cons_of_mem _ hn)
    simp only [printMembers, joinWith_cons] at hb ih ⊢
    rw [String.toList_append, String.toList_append, comma_toList, List.length_append,
      List.length_append, List.length_singleton] at hb
    rw [String.toList_append, String.toList_append, comma_toList, List.append_assoc,
      List.append_assoc, List.singleton_append]
    obtain ⟨b, rfl⟩ : ∃ c, b = c + 1 := ⟨b - 1, by omega⟩
    rw [membersUpTo_member hm (by omega) (.inl rfl), if_pos rfl,
      ih hnext b (by omega) (hnext next List.mem_cons_self) (hlength next)]
    rfl

theorem valueUpTo_array {c : Char} (hc : startsValue c = true) (cs : List Char) :
    valueUpTo (bound + 1) ('[' :: c :: cs) =
      (itemsUpTo bound (c :: cs)).map fun (items, rest) => (array items, rest) := by
  have hclose : c ≠ ']' := by
    rintro rfl
    revert hc
    decide
  simp [valueUpTo, skipBlanks_of_startsValue hc, skipBlanks_of_startsValue (c := '[') (by decide),
    hclose]

theorem valueUpTo_object (cs : List Char) :
    valueUpTo (bound + 1) ('\x7b' :: '"' :: cs) =
      (membersUpTo bound ('"' :: cs)).map fun (members, rest) => (ofMembers members, rest) := rfl

theorem joinWith_front (separator : String) {t : String} (texts : List String) {c : Char}
    {cs : List Char} (h : t.toList = c :: cs) :
    ∃ ds, (joinWith separator (t :: texts)).toList = c :: ds := by
  cases texts with
  | nil => exact ⟨cs, h⟩
  | cons u texts =>
    exact ⟨_, by rw [joinWith_cons, String.toList_append, String.toList_append, h]; rfl⟩

theorem readsBack_array {items : List Json} (h : ∀ j ∈ items, ReadsBack j) :
    ReadsBack (array items) := by
  intro bound rest hb _
  rw [print_array, List.length_cons, List.length_append, List.length_singleton] at hb
  obtain ⟨b, rfl⟩ : ∃ b, bound = b + 1 := ⟨bound - 1, by omega⟩
  rw [print_array, List.cons_append, List.append_assoc, List.singleton_append]
  cases items with
  | nil => rfl
  | cons item items =>
    have hlt : (joinWith "," (printItems (item :: items))).toList.length + 1 < b := by omega
    have hitems := @itemsUpTo_print b rest item items h hlt
    obtain ⟨c, _, hp, hc⟩ := print_front item
    obtain ⟨ds, hds⟩ := joinWith_front "," (printItems items) hp
    rw [printItems, hds, List.cons_append] at hitems ⊢
    rw [valueUpTo_array hc, hitems]
    rfl

theorem readsBack_object {members : List (String × Json)} (h : ∀ m ∈ members, ReadsBack m.2) :
    ReadsBack (object members) := by
  intro bound rest hb _
  rw [print_object, List.length_cons, List.length_append, List.length_singleton] at hb
  obtain ⟨b, rfl⟩ : ∃ b, bound = b + 1 := ⟨bound - 1, by omega⟩
  rw [print_object, List.cons_append, List.append_assoc, List.singleton_append]
  cases members with
  | nil => rfl
  | cons m members =>
    have hlt : (joinWith "," (printMembers (m :: members))).toList.length + 1 < b := by omega
    have hmembers := @membersUpTo_print b rest m members h hlt
    have hquote : (quote m.1 ++ ":" ++ print m.2).toList =
        '"' :: (m.1.toList.flatMap escapeChar ++ '"' :: ':' :: (print m.2).toList) := by
      simp [quote_toList]
    obtain ⟨ds, hds⟩ := joinWith_front "," (printMembers members) hquote
    rw [printMembers, hds, List.cons_append] at hmembers ⊢
    rw [valueUpTo_object, hmembers, Option.map_some]
    dsimp only
    rw [ofMembers_found]
    rfl

theorem readsBack_string (s : String) : ReadsBack (string s) := by
  intro bound rest hb _
  obtain ⟨b, rfl⟩ : ∃ b, bound = b + 1 := ⟨bound - 1, by omega⟩
  rw [print, quote_toList, List.cons_append, List.append_assoc, List.singleton_append, valueUpTo,
    skipBlanks_mark (by decide)]
  simp only [quoted?_escaped, Option.map_some]
  rfl

theorem readsBack_number (n : Binary64) : ReadsBack (number n) := by
  have hnull {n : Binary64} (h : numberText n = "null") : ReadsBack (number n) :=
    readsBack_null h (by rw [reread, h]; rfl)
  cases n with
  | nan | infinity _ => exact hnull (by simp [numberText])
  | finite negative m =>
    exact readsBack_numeral negative (isNumeral_magnitudeText m) (numberText_finite negative m)
      (by rw [reread, numberText_finite])

mutual

/-- Every value is read back from its text, whatever follows it. -/
theorem readsBack (j : Json) : ReadsBack j := by
  match j with
  | null => exact readsBack_null rfl rfl
  | invalid => exact readsBack_null rfl rfl
  | bool true =>
    exact readsBack_word 't' ['r', 'u', 'e'] rfl fun _ _ => rfl
  | bool false =>
    exact readsBack_word 'f' ['a', 'l', 's', 'e'] rfl fun _ _ => rfl
  | natural n =>
    exact readsBack_numeral false (isWhole_decimalDigits n).numeral String.toList_ofList rfl
  | number n => exact readsBack_number n
  | string s => exact readsBack_string s
  | array items => exact readsBack_array (readsBack_items items)
  | object members => exact readsBack_object (readsBack_members members)

theorem readsBack_items (items : List Json) : ∀ j ∈ items, ReadsBack j := by
  match items with
  | [] => exact fun _ hj => absurd hj List.not_mem_nil
  | item :: rest => exact List.forall_mem_cons.mpr ⟨readsBack item, readsBack_items rest⟩

theorem readsBack_members (members : List (String × Json)) : ∀ m ∈ members, ReadsBack m.2 := by
  match members with
  | [] => exact fun _ hm => absurd hm List.not_mem_nil
  | (key, value) :: rest =>
    exact List.forall_mem_cons.mpr ⟨readsBack value, readsBack_members rest⟩

end

end Reading

/-- The reader of a printed value finds what the value is read as. -/
theorem parse?_print (j : Json) : parse? (print j) = some (reread j) := by
  have h := readsBack j (Nat.lt_succ_self _) endsNumber_nil
  rw [List.append_nil] at h
  rw [parse?, ← String.length_toList, h]
  rfl

end SchemaGen.Json
