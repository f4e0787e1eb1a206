import SchemaGen.Proofs.Emit.Closed

namespace SchemaGen

open Idl Numeric Text

/-- Characters of a class without the closing parenthesis and the quote are plain. -/
theorem plain_of {test : Char → Bool} (hclose : test ')' = false) (hquote : test '\'' = false)
    {c : Char} (h : test c = true) : isPlain c = true := by
  simp only [isPlain, Bool.and_eq_true, bne_iff_ne, ne_eq]
  constructor
  · rintro rfl
    simp [hclose] at h
  · rintro rfl
    simp [hquote] at h

theorem plain_digits (n : Nat) : (decimalDigits n).all isPlain = true := by
  rw [List.all_eq_true]
  intro c hc
  have hd : Numeric.isDigit c = true := by simpa [Numeric.isDigit] using mem_decimalDigits hc
  exact plain_of (by decide) (by decide) hd

theorem plain_zeros (n : Nat) : (List.replicate n '0').all isPlain = true := by
  rw [List.all_eq_true]
  intro c hc
  rw [List.eq_of_mem_replicate hc]
  decide

theorem plain_positional (d : Decimal) : d.positional.all isPlain = true := by
  have hd := plain_digits d.digits
  have hpoint : isPlain '.' = true := by decide
  have hzero : isPlain '0' = true := by decide
  unfold Decimal.positional
  dsimp only
  split
  · simp only [List.all_cons, List.all_append, plain_zeros, hd, hpoint, hzero, Bool.and_true]
  · split
    · simp only [List.all_append, plain_zeros, hd, Bool.and_true]
    · rw [List.all_eq_true] at hd ⊢
      intro c hc
      rcases List.mem_append.mp hc with hc | hc
      · exact hd c (List.mem_of_mem_take hc)
      · rcases List.mem_cons.mp hc with rfl | hc
        · exact hpoint
        · exact hd c (List.mem_of_mem_drop hc)

theorem plain_mantissa (d : Decimal) : d.mantissa.all isPlain = true := by
  have hd := plain_digits d.digits
  unfold Decimal.mantissa
  split
  · rfl
  · next h => rwa [h] at hd
  · next h =>
    rw [h] at hd
    have hpoint : isPlain '.' = true := by decide
    simp only [List.all_cons, Bool.and_eq_true] at hd ⊢
    exact ⟨hd.1, hpoint, hd.2⟩

theorem plain_signedExponent (d : Decimal) : d.signedExponent.all isPlain = true := by
  unfold Decimal.signedExponent
  rw [List.all_cons, plain_digits, Bool.and_true]
  split <;> decide

theorem plain_number (n : Binary64) : n.text.toList.all isPlain = true := by
  have hminus : isPlain '-' = true := by decide
  have hmark : isPlain 'e' = true := by decide
  unfold Binary64.text
  split
  · decide
  · split <;> decide
  · next negative m =>
    split
    · decide
    · dsimp only
      rw [String.toList_ofList]
      have hbody : (if isPositional m then (shortest .up m).positional
          else (shortest .up m).mantissa ++ 'e' :: (shortest .up m).signedExponent).all isPlain =
          true := by
        split
        · exact plain_positional _
        · simp only [List.all_append, List.all_cons, plain_mantissa, plain_signedExponent, hmark,
            Bool.and_true]
      split
      · rw [List.all_cons, hminus, hbody, Bool.and_true]
      · exact hbody

theorem isIdentifierRest_of_start {c : Char} (h : isIdentifierStart c = true) :
    isIdentifierRest c = true := by
  simp only [isIdentifierStart, Bool.or_eq_true] at h
  rcases h with (h | h) | h <;> simp [isIdentifierRest, Char.isAlphanum, h]

theorem closed_name {name : String} (h : isName name.toList = true) : Closed name.toList :=
  closed_plain <| List.all_eq_true.mpr fun _ hc =>
    plain_of (by decide) (by decide) (isNameChar_of_isName h _ hc)

theorem bareName_chars {name : String} (h : isBareName name = true) :
    ∀ c ∈ name.toList, isIdentifierRest c = true := by
  unfold isBareName at h
  split at h
  · cases h
  · next c rest hl =>
    rw [hl]
    rw [Bool.and_eq_true, List.all_eq_true] at h
    intro x hx
    rcases List.mem_cons.mp hx with rfl | hx
    · exact isIdentifierRest_of_start h.1
    · exact h.2 x hx

theorem closed_bareName {name : String} (h : isBareName name = true) : Closed name.toList :=
  closed_plain <| List.all_eq_true.mpr fun _ hc =>
    plain_of (by decide) (by decide) (bareName_chars h _ hc)

/-- The names of constants in a constant are names. -/
inductive Constant.Named : Constant → Prop where
  | bool (b : Bool) : Named (.bool b)
  | number (n : Binary64) : Named (.number n)
  | string (text : String) : Named (.string text)
  | list {items : List Constant} (h : ∀ item ∈ items, item.Named) : Named (.list items)
  | map {pairs : List (Constant × Constant)} (hk : ∀ p ∈ pairs, p.1.Named)
      (hv : ∀ p ∈ pairs, p.2.Named) : Named (.map pairs)
  | identifier {name : String} (h : isName name.toList = true) : Named (.identifier name)
  | null : Named .null

namespace Constant

theorem literals_eq_map (items : List Constant) : literals items = items.map literal := by
  induction items with
  | nil => rfl
  | cons item items ih => rw [literals, ih, List.map_cons]

/-- A pair of a map as it is printed. -/
def entryLiteral (p : Constant × Constant) : String :=
  keyText p.1 (literal p.1) ++ ": " ++ literal p.2

theorem entryLiterals_eq_map (pairs : List (Constant × Constant)) :
    entryLiterals pairs = pairs.map entryLiteral := by
  induction pairs with
  | nil => rfl
  | cons p pairs ih => rw [entryLiterals, ih, List.map_cons, entryLiteral]

theorem closed_boolText (b : Bool) : Closed (boolText b).toList := by
  cases b <;> exact closed_plain (by decide)

theorem closed_number (n : Binary64) : Closed n.text.toList := closed_plain (plain_number n)

theorem closed_between {opening closing : String} {cs : String}
    (ho : opening.toList.all isPlain = true) (hc : closing.toList.all isPlain = true)
    (h : Closed cs.toList) : Closed (opening ++ cs ++ closing).toList := by
  rw [String.toList_append, String.toList_append]
  exact ((closed_plain ho).append h).append (closed_plain hc)

theorem closed_keyText (key : Constant) {literal : String} (h : Closed literal.toList) :
    Closed (keyText key literal).toList := by
  have hcomputed : Closed ("[" ++ literal ++ "]").toList :=
    closed_between (by decide) (by decide) h
  unfold keyText
  dsimp only
  split
  · split
    · next hb => exact closed_bareName hb
    · exact closed_quote _
  · split
    · next hb => exact closed_bareName hb
    · exact hcomputed
  · split
    · exact closed_number _
    · exact hcomputed
  · exact hcomputed

theorem closed_literal {c : Constant} (h : c.Named) : Closed c.literal.toList := by
  induction h with
  | bool b => exact closed_boolText b
  | number n => exact closed_number n
  | string text => exact closed_quote text
  | @list items _ ih =>
    rw [literal, literals_eq_map]
    apply closed_between (by decide) (by decide)
    apply closed_joinWith (closed_plain (by decide))
    intro t ht
    obtain ⟨item, hi, rfl⟩ := List.mem_map.mp ht
    exact ih item hi
  | @map pairs _ _ ihk ihv =>
    cases pairs with
    | nil => exact closed_plain (by decide)
    | cons p pairs =>
      rw [literal, entryLiterals_eq_map]
      · apply closed_between (by decide) (by decide)
        apply closed_joinWith (closed_plain (by decide))
        intro t ht
        obtain ⟨q, hq, rfl⟩ := List.mem_map.mp ht
        rw [entryLiteral, String.toList_append, String.toList_append]
        have hkey := closed_keyText q.1 (ihk q hq)
        exact (hkey.append (closed_plain (by decide))).append (ihv q hq)
      · simp
  | identifier h => exact closed_name h
  | null => exact closed_plain (by decide)

end Constant

/-- The literal of a default is closed. -/
theorem SchemaType.closed_defaultText (inner : SchemaType) {value : Constant} (h : value.Named) :
    Closed (defaultText inner value).toList := by
  unfold defaultText
  split
  · exact closed_quote _
  · exact Constant.closed_number _
  · exact Constant.closed_boolText _
  · exact Constant.closed_number _
  · exact Constant.closed_boolText _
  · exact Constant.closed_literal h

end SchemaGen
