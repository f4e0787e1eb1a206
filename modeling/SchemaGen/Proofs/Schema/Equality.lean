import SchemaGen.Schema.Contents

namespace SchemaGen

open Numeric Text

namespace Numeric.Binary64

/-- The number that stands for all numbers that are the same key: a zero loses its sign. -/
def keyForm : Binary64 → Binary64
  | finite negative magnitude => finite (negative && magnitude.val != 0) magnitude
  | n => n

theorem isFinite_keyForm (n : Binary64) : n.keyForm.isFinite = n.isFinite := by
  cases n <;> rfl

theorem text_keyForm (n : Binary64) : n.keyForm.text = n.text := by
  cases n with
  | nan | infinity _ => rfl
  | finite negative m =>
    by_cases hzero : m.val = 0
    · simp [keyForm, text, hzero]
    · have hform : (finite negative m).keyForm = finite negative m := by
        simp [keyForm, hzero]
      rw [hform]

/-- Numbers have one key form if they are equal, and if both are NaN. -/
theorem keyForm_eq_iff (m n : Binary64) :
    (m.equal n || (m.isNaN && n.isNaN)) = true ↔ m.keyForm = n.keyForm := by
  cases m with
  | nan | infinity _ => cases n <;> simp [equal, isNaN, keyForm]
  | finite s m =>
    cases n with
    | nan | infinity _ => simp [equal, isNaN, keyForm]
    | finite t n =>
      by_cases hm : m = n
      · subst hm
        by_cases hzero : m.val = 0
        · simp [equal, isNaN, keyForm, hzero]
        · have hnonzero : (m.val != 0) = true := bne_iff_ne.mpr hzero
          simp [equal, isNaN, keyForm, hzero, hnonzero]
      · simp [equal, isNaN, keyForm, hm]

/-- NaN alone is the same key as itself without being equal to itself. -/
theorem equal_iff (m n : Binary64) : m.equal n = true ↔ m.keyForm = n.keyForm ∧ nan ≠ m := by
  rw [← keyForm_eq_iff]
  cases m with
  | nan => simp [equal]
  | infinity _ | finite _ _ => simp [isNaN]

end Numeric.Binary64

namespace Constant

/- The value with each of its numbers in key form. -/
mutual

def keyForm : Constant → Constant
  | number n => number n.keyForm
  | list items => list (keyForms items)
  | map pairs => map (pairKeyForms pairs)
  | bool b => bool b
  | string s => string s
  | identifier name => identifier name
  | null => null

def keyForms : List Constant → List Constant
  | [] => []
  | item :: rest => keyForm item :: keyForms rest

def pairKeyForms : List (Constant × Constant) → List (Constant × Constant)
  | [] => []
  | (key, value) :: rest => (keyForm key, keyForm value) :: pairKeyForms rest

end

/-- The comparison of numbers in keys. -/
abbrev sameNumber (m n : Binary64) : Bool := m.equal n || (m.isNaN && n.isNaN)

mutual

theorem sameKey_iff (a b : Constant) : sameKey a b = true ↔ a.keyForm = b.keyForm := by
  match a with
  | bool _ | string _ | identifier _ | null => cases b <;> simp [sameKey, eqBy, keyForm]
  | number m =>
    cases b with
    | number n =>
      rw [keyForm, keyForm, number.injEq]
      exact m.keyForm_eq_iff n
    | _ => simp [sameKey, eqBy, keyForm]
  | list items =>
    cases b with
    | list others =>
      rw [keyForm, keyForm, list.injEq]
      exact itemsSame_iff items others
    | _ => simp [sameKey, eqBy, keyForm]
  | map pairs =>
    cases b with
    | map others =>
      rw [keyForm, keyForm, map.injEq]
      exact pairsSame_iff pairs others
    | _ => simp [sameKey, eqBy, keyForm]

theorem itemsSame_iff (items others : List Constant) :
    itemsEqBy sameNumber items others = true ↔ keyForms items = keyForms others := by
  match items, others with
  | [], [] | [], _ :: _ | _ :: _, [] => simp [itemsEqBy, keyForms]
  | a :: items, b :: others =>
    rw [itemsEqBy, Bool.and_eq_true, keyForms, keyForms, List.cons.injEq,
      itemsSame_iff items others]
    exact and_congr_left' (sameKey_iff a b)

theorem pairsSame_iff (pairs others : List (Constant × Constant)) :
    pairsEqBy sameNumber pairs others = true ↔ pairKeyForms pairs = pairKeyForms others := by
  match pairs, others with
  | [], [] | [], _ :: _ | _ :: _, [] => simp [pairsEqBy, pairKeyForms]
  | (a, x) :: pairs, (b, y) :: others =>
    rw [pairsEqBy, Bool.and_eq_true, Bool.and_eq_true, pairKeyForms, pairKeyForms,
      List.cons.injEq, Prod.mk.injEq, pairsSame_iff pairs others]
    exact and_congr_left' (and_congr (sameKey_iff a b) (sameKey_iff x y))

end

/-- The same key is an equivalence, as the values of one key form are one class. -/
theorem sameKey_equivalence : Equivalence fun a b : Constant => sameKey a b = true where
  refl a := (sameKey_iff a a).mpr rfl
  symm h := (sameKey_iff _ _).mpr ((sameKey_iff _ _).mp h).symm
  trans h k := (sameKey_iff _ _).mpr (((sameKey_iff _ _).mp h).trans ((sameKey_iff _ _).mp k))

/- Values are equal if they have one key form without NaN, by the structure of the first. -/
mutual

theorem equal_iff (a b : Constant) :
    equal a b = true ↔ a.keyForm = b.keyForm ∧ .nan ∉ a.numbers := by
  match a with
  | bool _ | string _ | identifier _ | null =>
    cases b <;> simp [equal, eqBy, keyForm, numbers]
  | number m =>
    cases b with
    | number n =>
      rw [keyForm, keyForm, number.injEq, numbers, List.mem_singleton]
      exact m.equal_iff n
    | _ => simp [equal, eqBy, keyForm]
  | list items =>
    cases b with
    | list others =>
      rw [keyForm, keyForm, list.injEq]
      exact itemsEqual_iff items others
    | _ => simp [equal, eqBy, keyForm]
  | map pairs =>
    cases b with
    | map others =>
      rw [keyForm, keyForm, map.injEq]
      exact pairsEqual_iff pairs others
    | _ => simp [equal, eqBy, keyForm]

theorem itemsEqual_iff (items others : List Constant) :
    itemsEqBy Binary64.equal items others = true ↔
      keyForms items = keyForms others ∧ .nan ∉ itemNumbers items := by
  match items, others with
  | [], [] | [], _ :: _ | _ :: _, [] => simp [itemsEqBy, keyForms, itemNumbers]
  | a :: items, b :: others =>
    have hitem : eqBy Binary64.equal a b = true ↔ _ := equal_iff a b
    rw [itemsEqBy, Bool.and_eq_true, hitem, itemsEqual_iff items others, keyForms, keyForms,
      List.cons.injEq, itemNumbers, List.mem_append, not_or, and_and_and_comm]

theorem pairsEqual_iff (pairs others : List (Constant × Constant)) :
    pairsEqBy Binary64.equal pairs others = true ↔
      pairKeyForms pairs = pairKeyForms others ∧ .nan ∉ pairNumbers pairs := by
  match pairs, others with
  | [], [] | [], _ :: _ | _ :: _, [] => simp [pairsEqBy, pairKeyForms, pairNumbers]
  | (a, x) :: pairs, (b, y) :: others =>
    have hkey : eqBy Binary64.equal a b = true ↔ _ := equal_iff a b
    have hvalue : eqBy Binary64.equal x y = true ↔ _ := equal_iff x y
    rw [pairsEqBy, Bool.and_eq_true, Bool.and_eq_true, hkey, hvalue, pairsEqual_iff pairs others,
      pairKeyForms, pairKeyForms, List.cons.injEq, Prod.mk.injEq, pairNumbers, List.mem_append,
      List.mem_append, not_or, not_or]
    exact (and_congr_left' and_and_and_comm).trans and_and_and_comm

end

/-- Equality is that of keys, without NaN. -/
theorem equal_iff_sameKey (a b : Constant) :
    equal a b = true ↔ sameKey a b = true ∧ .nan ∉ a.numbers := by
  rw [equal_iff, sameKey_iff]

theorem equal_self_iff (a : Constant) : equal a a = true ↔ .nan ∉ a.numbers := by
  rw [equal_iff, and_iff_right rfl]

mutual

theorem numbers_keyForm (v : Constant) : v.keyForm.numbers = v.numbers.map Binary64.keyForm := by
  match v with
  | bool _ | string _ | identifier _ | null | number _ => rfl
  | list items => exact itemNumbers_keyForm items
  | map pairs => exact pairNumbers_keyForm pairs

theorem itemNumbers_keyForm (items : List Constant) :
    itemNumbers (keyForms items) = (itemNumbers items).map Binary64.keyForm := by
  match items with
  | [] => rfl
  | item :: rest =>
    rw [keyForms, itemNumbers, itemNumbers, numbers_keyForm item, itemNumbers_keyForm rest,
      List.map_append]

theorem pairNumbers_keyForm (pairs : List (Constant × Constant)) :
    pairNumbers (pairKeyForms pairs) = (pairNumbers pairs).map Binary64.keyForm := by
  match pairs with
  | [] => rfl
  | (key, value) :: rest =>
    rw [pairKeyForms, pairNumbers, pairNumbers, numbers_keyForm key, numbers_keyForm value,
      pairNumbers_keyForm rest, List.map_append, List.map_append]

end

theorem nan_mem_numbers_keyForm (v : Constant) : .nan ∈ v.keyForm.numbers ↔ .nan ∈ v.numbers := by
  rw [numbers_keyForm, List.mem_map]
  constructor
  · rintro ⟨n, hn, hform⟩
    cases n with
    | nan => exact hn
    | infinity _ | finite _ _ => cases hform
  · exact fun h => ⟨.nan, h, rfl⟩

theorem equal_symm {a b : Constant} (h : equal a b = true) : equal b a = true := by
  obtain ⟨hform, hnan⟩ := (equal_iff a b).mp h
  rw [← nan_mem_numbers_keyForm, hform, nan_mem_numbers_keyForm] at hnan
  exact (equal_iff b a).mpr ⟨hform.symm, hnan⟩

theorem keyText_keyForm (v : Constant) (literal : String) :
    keyText v.keyForm literal = keyText v literal := by
  cases v with
  | number n => rw [keyForm, keyText, keyText, n.isFinite_keyForm, n.text_keyForm]
  | bool _ | string _ | list _ | map _ | identifier _ | null => rfl

mutual

theorem printed_keyForm (v : Constant) :
    v.keyForm.literal = v.literal ∧ v.keyForm.text = v.text := by
  match v with
  | bool _ | string _ | identifier _ | null => exact ⟨rfl, rfl⟩
  | number n => exact ⟨n.text_keyForm, n.text_keyForm⟩
  | list items =>
    obtain ⟨hliterals, htexts⟩ := itemsPrinted_keyForm items
    rw [keyForm, literal, literal, text, text, hliterals, htexts]
    exact ⟨rfl, rfl⟩
  | map [] => exact ⟨rfl, rfl⟩
  | map ((key, value) :: rest) =>
    have hentries := entryLiterals_keyForm ((key, value) :: rest)
    have hliteral : (map ((key, value) :: rest)).keyForm.literal =
        (map ((key, value) :: rest)).literal := by
      rw [keyForm, pairKeyForms, literal, literal, ← pairKeyForms, hentries]
      · simp
      · simp
    exact ⟨hliteral, hliteral⟩

theorem itemsPrinted_keyForm (items : List Constant) :
    literals (keyForms items) = literals items ∧ texts (keyForms items) = texts items := by
  match items with
  | [] => exact ⟨rfl, rfl⟩
  | item :: rest =>
    obtain ⟨hliteral, htext⟩ := printed_keyForm item
    obtain ⟨hliterals, htexts⟩ := itemsPrinted_keyForm rest
    rw [keyForms, literals, literals, texts, texts, hliteral, htext, hliterals, htexts]
    exact ⟨rfl, rfl⟩

theorem entryLiterals_keyForm (pairs : List (Constant × Constant)) :
    entryLiterals (pairKeyForms pairs) = entryLiterals pairs := by
  match pairs with
  | [] => rfl
  | (key, value) :: rest =>
    rw [pairKeyForms, entryLiterals, entryLiterals, keyText_keyForm, (printed_keyForm key).1,
      (printed_keyForm value).1, entryLiterals_keyForm rest]

end

theorem propertyKey_keyForm (v : Constant) : v.keyForm.propertyKey = v.propertyKey := by
  rw [propertyKey, propertyKey, (printed_keyForm v).1, keyText_keyForm]

/-- Whatever is the same key has one text, one literal and one form as a key. -/
theorem printed_of_sameKey {a b : Constant} (h : sameKey a b = true) :
    a.text = b.text ∧ a.literal = b.literal ∧ a.propertyKey = b.propertyKey := by
  rw [sameKey_iff] at h
  obtain ⟨hliteral, htext⟩ := printed_keyForm a
  obtain ⟨hliteral', htext'⟩ := printed_keyForm b
  rw [← htext, ← hliteral, ← propertyKey_keyForm a, h, htext', hliteral', propertyKey_keyForm]
  exact ⟨rfl, rfl, rfl⟩

/-- Equal constants have the same literal and the same text. -/
theorem texts_of_equal (a b : Constant) (h : equal a b = true) :
    a.literal = b.literal ∧ a.text = b.text := by
  obtain ⟨htext, hliteral, -⟩ := printed_of_sameKey ((equal_iff_sameKey a b).mp h).1
  exact ⟨hliteral, htext⟩

/-- The same key is an equivalence between equality and printing: values are equal exactly if they
are the same key and hold no NaN, and values that are the same key print the same, as plain text, as
a literal and as a key of an object. -/
theorem sameKey_between_equal_and_printed :
    (Equivalence fun a b : Constant => sameKey a b = true) ∧
      (∀ a b : Constant, equal a b = true ↔ sameKey a b = true ∧ .nan ∉ a.numbers) ∧
      ∀ a b : Constant, sameKey a b = true →
        a.text = b.text ∧ a.literal = b.literal ∧ a.propertyKey = b.propertyKey :=
  ⟨sameKey_equivalence, equal_iff_sameKey, fun _ _ => printed_of_sameKey⟩

end Constant
end SchemaGen
