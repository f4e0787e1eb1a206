import SchemaGen.Derive.Constant
import SchemaGen.Idl.Contents
import SchemaGen.Idl.Diagnostic
import SchemaGen.Proofs.Emit.Literal
import SchemaGen.Proofs.Numeric.Numeral
import SchemaGen.Proofs.Schema.Table
import SchemaGen.Schema.Contents

namespace SchemaGen

open Idl Numeric Text

/-- Words that are no names in a module. -/
def reservedWords : List String :=
  ["await", "break", "case", "catch", "class", "const", "continue", "debugger", "default", "delete",
    "do", "else", "enum", "export", "extends", "false", "finally", "for", "function", "if",
    "implements", "import", "in", "instanceof", "interface", "let", "new", "null", "package",
    "private", "protected", "public", "return", "static", "super", "switch", "this", "throw",
    "true", "try", "typeof", "var", "void", "while", "with", "yield"]

/-- A name that is not reserved. -/
def isFreeName (name : List Char) : Bool :=
  isBareName (String.ofList name) && !reservedWords.contains (String.ofList name)

/-- Free names with points between them. -/
def isReference (name : String) : Bool := (splitOn '.' name.toList).all isFreeName

/-- What stands between single quotes: no quote, no line break and no lone backslash. -/
inductive QuotedBody : List Char → Prop where
  | nil : QuotedBody []
  | char {c : Char} {cs : List Char} (h : c ∉ ['\'', '\\', '\n', '\r']) (hr : QuotedBody cs) :
      QuotedBody (c :: cs)
  | escape {c : Char} {cs : List Char} (h : c ∈ ['\'', '"', '\\', 'b', 'f', 'n', 'r', 't', 'v'])
      (hr : QuotedBody cs) : QuotedBody ('\\' :: c :: cs)

/-- A string between single quotes. -/
def IsQuoted (cs : List Char) : Prop := ∃ body, QuotedBody body ∧ cs = '\'' :: (body ++ ['\''])

/-- Spaces and line breaks. -/
def IsBlank (cs : List Char) : Prop := ∀ c ∈ cs, c ∈ [' ', '\t', '\n', '\r']

/-- Parts with commas between them. -/
inductive Listed (P : List Char → Prop) : List Char → Prop where
  | last {cs : List Char} (h : P cs) : Listed P cs
  | more {cs bs ds : List Char} (h : P cs) (hb : IsBlank bs) (hr : Listed P ds) :
      Listed P (cs ++ ',' :: (bs ++ ds))

/-- The name of a property: a name, a string, a number without a sign, or an expression in
brackets. -/
inductive PropertyName (P : List Char → Prop) : List Char → Prop where
  | name {name : String} (h : isBareName name = true) : PropertyName P name.toList
  | string {cs : List Char} (h : IsQuoted cs) : PropertyName P cs
  | number {cs : List Char} (h : IsNumeral cs) : PropertyName P cs
  | computed {cs : List Char} (h : P cs) : PropertyName P ('[' :: (cs ++ [']']))

/-- A property and its value. -/
inductive Property (P : List Char → Prop) : List Char → Prop where
  | mk {ks bs vs : List Char} (hk : PropertyName P ks) (hb : IsBlank bs) (hv : P vs) :
      Property P (ks ++ ':' :: (bs ++ vs))

/-- The expressions that literals are made of. Two signs in a row would be another operator. -/
inductive Expression : List Char → Prop where
  | word {cs : List Char} (h : cs ∈ ["true".toList, "false".toList, "null".toList]) : Expression cs
  | reference {name : String} (h : isReference name = true) : Expression name.toList
  | number {cs : List Char} (h : IsNumeral cs) : Expression cs
  | negative {cs : List Char} (h : Expression cs) (hc : cs.head? ≠ some '-') :
      Expression ('-' :: cs)
  | string {cs : List Char} (h : IsQuoted cs) : Expression cs
  | emptyArray : Expression ['[', ']']
  | array {cs : List Char} (h : Listed Expression cs) : Expression ('[' :: (cs ++ [']']))
  | emptyObject : Expression ['\x7b', '\x7d']
  | object {bs cs ds : List Char} (hb : IsBlank bs) (h : Listed (Property Expression) cs)
      (hd : IsBlank ds) : Expression ('\x7b' :: (bs ++ (cs ++ (ds ++ ['\x7d']))))

theorem isBlank_space : IsBlank [' '] := by simp [IsBlank]

theorem IsNumeral.head_ne {cs : List Char} (h : IsNumeral cs) : cs.head? ≠ some '-' := by
  obtain ⟨c, ds, rfl, hc⟩ := h.front
  rintro ⟨⟩
  exact absurd hc (by decide)

theorem expression_number (n : Binary64) : Expression n.text.toList := by
  have hinfinity : Expression "Infinity".toList := .reference (by decide)
  cases n with
  | nan => exact @Expression.reference "NaN" (by decide)
  | infinity negative =>
    cases negative with
    | false => exact hinfinity
    | true => exact .negative hinfinity (by decide)
  | finite negative m =>
    obtain ⟨cs, hcs, ht⟩ := isNumeral_text negative m
    rw [ht]
    split
    · exact .negative (.number hcs) (IsNumeral.head_ne hcs)
    · exact .number hcs

theorem quotedBody_escape (cs : List Char) : QuotedBody (cs.flatMap escapeChar) := by
  induction cs with
  | nil => exact .nil
  | cons c cs ih =>
    rw [List.flatMap_cons]
    unfold escapeChar
    split
    · exact .escape (by decide) ih
    · exact .escape (by decide) ih
    · exact .escape (by decide) ih
    · exact .escape (by decide) ih
    · exact .escape (by decide) ih
    · next hb hq hn hr _ =>
      exact .char (by simpa using ⟨hq, hb, hn, hr⟩) ih

theorem isQuoted_quote (s : String) : IsQuoted (quote s).toList :=
  ⟨_, quotedBody_escape s.toList, quote_toList s⟩

theorem listed_joinWith {P : List Char → Prop} {texts : List String} (hne : texts ≠ [])
    (h : ∀ t ∈ texts, P t.toList) : Listed P (joinWith ", " texts).toList := by
  match texts with
  | [] => exact absurd rfl hne
  | [t] => exact .last (h t (by simp))
  | t :: u :: rest =>
    have hrest := listed_joinWith (by simp) fun x hx => h x (List.mem_cons_of_mem t hx)
    rw [joinWith, String.toList_append, String.toList_append, List.append_assoc]
    exact .more (h t (by simp)) isBlank_space hrest

namespace Constant

/-- The key of a number below zero begins with its sign. -/
theorem head?_propertyKey {key : Constant} (h : key.isNegative = true) :
    key.propertyKey.toList.head? = some '-' := by
  unfold isNegative at h
  split at h
  · next negative m =>
    obtain ⟨cs, -, ht⟩ := isNumeral_text negative m
    have hm : (negative && decide (m.val ≠ 0)) = true := by simpa using h
    rw [if_pos hm] at ht
    simp [propertyKey, keyText, Binary64.isFinite, ht]
  · cases h

theorem propertyName_computed {literal : String} (h : Expression literal.toList) :
    PropertyName Expression ("[" ++ literal ++ "]").toList := by
  rw [String.toList_append, String.toList_append, List.append_assoc]
  exact .computed h

theorem propertyName_propertyKey {key : Constant} (hn : key.isNegative = false)
    (h : Expression key.literal.toList) : PropertyName Expression key.propertyKey.toList := by
  have hcomputed := propertyName_computed h
  unfold propertyKey keyText
  dsimp only
  split
  · split
    · next hb => exact .name hb
    · exact .string (isQuoted_quote _)
  · split
    · next hb => exact .name hb
    · exact hcomputed
  · next n =>
    cases n with
    | nan | infinity _ => exact hcomputed
    | finite negative m =>
      obtain ⟨cs, hcs, ht⟩ := isNumeral_text negative m
      have hm : ¬(negative && decide (m.val ≠ 0)) = true := by simpa [isNegative] using hn
      rw [if_neg hm] at ht
      rw [if_pos (by rfl), ht]
      exact .number hcs
  · exact hcomputed

end Constant

/-- The name of a property begins with neither a blank nor a sign. -/
theorem PropertyName.front {P : List Char → Prop} {cs : List Char} (h : PropertyName P cs) :
    ∃ c ds, cs = c :: ds ∧ c ∉ ['-', ' ', '\t', '\n', '\r'] := by
  cases h with
  | @name name h =>
    unfold isBareName at h
    split at h
    · cases h
    · next c rest hl =>
      refine ⟨c, rest, hl, fun hc => ?_⟩
      have hstart := (Bool.and_eq_true_iff.mp h).1
      have hall : ['-', ' ', '\t', '\n', '\r'].all (!isIdentifierStart ·) = true := by decide
      have hother := List.all_eq_true.mp hall c hc
      simp [hstart] at hother
  | string h =>
    obtain ⟨body, -, rfl⟩ := h
    exact ⟨_, _, rfl, by decide⟩
  | number h =>
    obtain ⟨c, ds, rfl, hd⟩ := h.front
    refine ⟨c, ds, rfl, fun hc => ?_⟩
    have hall : ['-', ' ', '\t', '\n', '\r'].all (!Numeric.isDigit ·) = true := by decide
    have hother := List.all_eq_true.mp hall c hc
    simp [hd] at hother
  | computed _ => exact ⟨_, _, rfl, by decide⟩

theorem not_propertyName_negative {P : List Char → Prop} {key : Constant}
    (h : key.isNegative = true) : ¬ PropertyName P key.propertyKey.toList := by
  intro hname
  obtain ⟨c, ds, hc, hfront⟩ := hname.front
  have hsign := Constant.head?_propertyKey h
  rw [hc, List.head?_cons, Option.some.injEq] at hsign
  exact hfront (by simp [hsign])

namespace Constant

/- A literal is an expression and the keys in it are names of properties, by the structure of the
constant: a computed key holds the literal of a smaller one. -/
mutual

theorem expression_literal (c : Constant) (hn : ∀ name ∈ c.names, isReference name = true)
    (hk : ∀ k ∈ c.keys, k.isNegative = false) : Expression c.literal.toList ∧
      ∀ k ∈ c.keys, PropertyName Expression k.propertyKey.toList := by
  match c with
  | .bool b => exact ⟨.word (by cases b <;> decide), by simp [keys]⟩
  | .number n => exact ⟨expression_number n, by simp [keys]⟩
  | .string text => exact ⟨.string (isQuoted_quote text), by simp [keys]⟩
  | .identifier name => exact ⟨.reference (hn name (by simp [names])), by simp [keys]⟩
  | .null => exact ⟨.word (by decide), by simp [keys]⟩
  | .list [] => exact ⟨.emptyArray, by simp [keys, itemKeys]⟩
  | .list (item :: items) =>
    obtain ⟨hitems, hkeys⟩ := expression_literals (item :: items) hn hk
    refine ⟨?_, hkeys⟩
    rw [literal, String.toList_append, String.toList_append, List.append_assoc]
    exact .array (listed_joinWith (by simp [literals]) hitems)
  | .map [] => exact ⟨.emptyObject, by simp [keys, pairKeys]⟩
  | .map (p :: pairs) =>
    obtain ⟨hpairs, hkeys⟩ := property_entryLiterals (p :: pairs) hn hk
    refine ⟨?_, hkeys⟩
    rw [literal, String.toList_append, String.toList_append, List.append_assoc]
    · exact .object isBlank_space (listed_joinWith (by simp [entryLiterals]) hpairs) isBlank_space
    · simp

theorem expression_literals (items : List Constant)
    (hn : ∀ name ∈ itemNames items, isReference name = true)
    (hk : ∀ k ∈ itemKeys items, k.isNegative = false) :
    (∀ t ∈ literals items, Expression t.toList) ∧
      ∀ k ∈ itemKeys items, PropertyName Expression k.propertyKey.toList := by
  match items with
  | [] => simp [literals, itemKeys]
  | item :: items =>
    simp only [itemNames, itemKeys, List.forall_mem_append] at hn hk
    obtain ⟨hitem, hkeys⟩ := expression_literal item hn.1 hk.1
    obtain ⟨hitems, hrest⟩ := expression_literals items hn.2 hk.2
    rw [literals, itemKeys]
    exact ⟨List.forall_mem_cons.mpr ⟨hitem, hitems⟩, List.forall_mem_append.mpr ⟨hkeys, hrest⟩⟩

theorem property_entryLiterals (pairs : List (Constant × Constant))
    (hn : ∀ name ∈ pairNames pairs, isReference name = true)
    (hk : ∀ k ∈ pairKeys pairs, k.isNegative = false) :
    (∀ t ∈ entryLiterals pairs, Property Expression t.toList) ∧
      ∀ k ∈ pairKeys pairs, PropertyName Expression k.propertyKey.toList := by
  match pairs with
  | [] => simp [entryLiterals, pairKeys]
  | (key, value) :: pairs =>
    simp only [pairNames, pairKeys, List.forall_mem_cons, List.forall_mem_append] at hn hk
    obtain ⟨hkey, hkeys⟩ := expression_literal key hn.1.1 hk.2.1.1
    obtain ⟨hvalue, hvalues⟩ := expression_literal value hn.1.2 hk.2.1.2
    obtain ⟨hpairs, hrest⟩ := property_entryLiterals pairs hn.2 hk.2.2
    have hname := propertyName_propertyKey hk.1 hkey
    have hproperty :
        Property Expression (keyText key (literal key) ++ ": " ++ literal value).toList := by
      rw [String.toList_append, String.toList_append, List.append_assoc]
      exact .mk hname isBlank_space hvalue
    simp only [entryLiterals, pairKeys, List.forall_mem_cons, List.forall_mem_append]
    exact ⟨⟨hproperty, hpairs⟩, hname, ⟨hkeys, hvalues⟩, hrest⟩

end

theorem mem_pairNames {name : String} {pairs : List (Constant × Constant)}
    (h : name ∈ pairNames pairs) : ∃ p ∈ pairs, name ∈ p.1.names ∨ name ∈ p.2.names := by
  induction pairs with
  | nil => exact absurd h List.not_mem_nil
  | cons p pairs ih =>
    rw [pairNames, List.mem_append, List.mem_append] at h
    rcases h with h | h
    · exact ⟨p, List.mem_cons_self, h⟩
    · obtain ⟨q, hq, h⟩ := ih h
      exact ⟨q, List.mem_cons_of_mem p hq, h⟩

end Constant

namespace Idl.ConstExpr

/- The value of an expression has no names but those of the expression. Entries with the same key
are merged, so that it may have fewer. -/
mutual

theorem names_value (e : ConstExpr) : ∀ name ∈ e.value.names, name ∈ e.names := by
  match e with
  | .bool _ | .int _ | .double _ | .string _ => simp [value, Constant.names]
  | .identifier name => simp [value, Constant.names, names]
  | .list items => exact names_values items
  | .map entries =>
    intro name h
    obtain ⟨p, hp, h⟩ := Constant.mem_pairNames h
    obtain ⟨⟨q, hq, hkey⟩, r, hr, hvalue⟩ := Table.mem_ofEntriesBy hp
    rcases h with h | h
    · exact names_entryValues entries q hq name (.inl (hkey ▸ h))
    · exact names_entryValues entries r hr name (.inr (hvalue ▸ h))

theorem names_values (items : List ConstExpr) :
    ∀ name ∈ Constant.itemNames (values items), name ∈ itemNames items := by
  match items with
  | [] => simp [values, Constant.itemNames]
  | item :: items =>
    intro name h
    rw [values, Constant.itemNames, List.mem_append] at h
    exact List.mem_append.mpr (h.imp (names_value item name) (names_values items name))

theorem names_entryValues (entries : List (ConstExpr × ConstExpr)) :
    ∀ p ∈ entryValues entries, ∀ name, name ∈ p.1.names ∨ name ∈ p.2.names →
      name ∈ entryNames entries := by
  match entries with
  | [] => simp [entryValues]
  | (key, val) :: entries =>
    intro p hp name h
    rw [entryValues] at hp
    rw [entryNames, List.mem_append, List.mem_append]
    rcases List.mem_cons.mp hp with rfl | hp
    · exact .inl (h.imp (names_value key name) (names_value val name))
    · exact .inr (names_entryValues entries p hp name h)

end

/-- The literal of a constant expression is an expression with names of properties for keys exactly
if none of its keys, at any depth, is a number below zero. -/
theorem expression_value_iff {e : ConstExpr} (h : ∀ name ∈ e.names, isReference name = true) :
    (Expression e.value.literal.toList ∧
        ∀ k ∈ e.value.keys, PropertyName Expression k.propertyKey.toList) ↔
      ∀ k ∈ e.value.keys, k.isNegative = false := by
  constructor
  · rintro ⟨-, hkeys⟩ k hk
    rw [← Bool.not_eq_true]
    exact fun hnegative => not_propertyName_negative hnegative (hkeys k hk)
  · exact e.value.expression_literal fun name hn => h name (names_value e name hn)

/-- The value below a whole number and the name in a list, with a list for a key. -/
theorem expression_value_pairs :
    let e : ConstExpr :=
      .map [(.int "1", .double "-0.5"), (.list [.int "-1"], .list [.identifier "Level.LOW"])]
    e.value.literal = "\x7b 1: -0.5, [[-1]]: [Level.LOW] \x7d" ∧
      Expression e.value.literal.toList ∧
      ∀ k ∈ e.value.keys, PropertyName Expression k.propertyKey.toList := by
  intro e
  exact ⟨by decide +kernel, (@expression_value_iff e (by decide +kernel)).mpr (by decide +kernel)⟩

end Idl.ConstExpr

theorem Listed.front {P : List Char → Prop} {cs : List Char} (h : Listed (Property P) cs) :
    ∃ c ds, cs = c :: ds ∧ c ∉ ['-', ' ', '\t', '\n', '\r'] := by
  cases h with
  | last h | more h _ _ =>
    cases h with
    | mk hk _ _ =>
      obtain ⟨c, ds, rfl, hc⟩ := hk.front
      exact ⟨c, _, rfl, hc⟩

theorem not_isReference_brace {cs : List Char} {name : String} (h : name.toList = '\x7b' :: cs) :
    isReference name = false := by
  have hfree (piece : List Char) : isFreeName ('\x7b' :: piece) = false := by
    simp [isFreeName, isBareName, isIdentifierStart]
  rw [isReference, h, splitOn, if_neg (by decide)]
  split <;> simp [hfree]

/-- No expression begins with a brace, a blank and a sign. -/
theorem not_expression_signed (cs : List Char) : ¬ Expression ('\x7b' :: ' ' :: '-' :: cs) := by
  intro h
  generalize ht : '\x7b' :: ' ' :: '-' :: cs = t at h
  cases h with
  | word h =>
    subst ht
    simp at h
  | reference h => simp [not_isReference_brace ht.symm] at h
  | number h =>
    obtain ⟨c, ds, rfl, hc⟩ := h.front
    obtain ⟨rfl, -⟩ := List.cons.inj ht
    exact absurd hc (by decide)
  | string h =>
    obtain ⟨body, -, rfl⟩ := h
    simp at ht
  | negative _ _ | emptyArray | array _ | emptyObject => simp at ht
  | @object bs _ _ hb h _ =>
    obtain ⟨c, ds, rfl, hc⟩ := h.front
    obtain ⟨-, ht⟩ := List.cons.inj ht
    -- The property would begin with the blank or with the sign, or the sign would be a blank.
    match bs with
    | [] =>
      obtain ⟨rfl, -⟩ := List.cons.inj ht
      exact hc (by decide)
    | [b] =>
      obtain ⟨rfl, -⟩ := List.cons.inj (List.cons.inj ht).2
      exact hc (by decide)
    | b :: b' :: bs =>
      obtain ⟨rfl, -⟩ := List.cons.inj (List.cons.inj ht).2
      exact absurd (hb '-' (by simp)) (by decide)

/-- The key -1 is printed without brackets. -/
theorem not_expression_negative :
    ∃ d, Idl.parse "const map<i32,i32> m=\x7b-1:2\x7d" = .ok d ∧ ∃ e ∈ d.constants,
      (∀ name ∈ e.names, isReference name = true) ∧
      e.value.literal = "\x7b -1: 2 \x7d" ∧ ¬ Expression e.value.literal.toList ∧
      ∃ k ∈ e.value.keys, ¬ PropertyName Expression k.propertyKey.toList := by
  have htest : (Idl.parse "const map<i32,i32> m=\x7b-1:2\x7d").toOption.any (fun d =>
      d.constants.any fun e => e.names.all isReference &&
        e.value.literal == "\x7b -1: 2 \x7d" && e.value.keys.any Constant.isNegative) = true := by
    decide +kernel
  obtain ⟨d, hp, hd⟩ := exists_parsed htest
  obtain ⟨e, he, hd⟩ := List.any_eq_true.mp hd
  rw [Bool.and_eq_true, Bool.and_eq_true, List.all_eq_true, beq_iff_eq, List.any_eq_true] at hd
  obtain ⟨⟨hnames, hliteral⟩, k, hk, hnegative⟩ := hd
  refine ⟨d, hp, e, he, hnames, hliteral, ?_, k, hk, not_propertyName_negative hnegative⟩
  rw [hliteral]
  exact not_expression_signed _

end SchemaGen
