import SchemaGen.Proofs.Emit.CallText
import SchemaGen.Proofs.Emit.Expression
import SchemaGen.Proofs.Idl.ConstantMirror
import SchemaGen.Proofs.Idl.DocumentCompleteness
import SchemaGen.Text.StringLiteral

namespace SchemaGen

open Text

/-- Whether a backslash escapes what follows a text. -/
def escapesNext (cs : List Char) : Bool :=
  cs.foldl (fun escaped c => !escaped && c == '\\') false

/-- A text that stands for a string in both languages. -/
structure Denotes (text s : String) : Prop where
  opening : ∃ body, text.toList = '\'' :: (body ++ ['\''])
  oneLine : '\n' ∉ text.toList ∧ '\r' ∉ text.toList
  /-- The quotes that no backslash escapes are the first and the last character. -/
  marks : ∀ front back, text.toList = front ++ '\'' :: back →
    (escapesNext front = false ↔ front = [] ∨ back = [])
  literal : ∀ rest, stringLiteral? (text.toList ++ rest) = some (units s, rest)
  constant : ∀ rest, Idl.constValue (text.toList ++ rest) = some (.string s, Idl.skip rest)
  /-- The grammar matches the text and nothing after it, and the walk makes the string of it. -/
  tree : ∀ source rest, ∃ t,
    Idl.grammar.Parses .spaced (.rule .constValue) (text.toList ++ rest) (some (rest, [t])) ∧
      Idl.ParseTree.constValue source t = .ok (.string s)
  definition : Idl.parse ("const string text = " ++ text) =
    .ok ⟨[], [.const (.base .string) "text" (.string s)]⟩

theorem escapesNext_cons {c : Char} (h : c ≠ '\\') (cs : List Char) :
    escapesNext (c :: cs) = escapesNext cs := by
  rw [escapesNext, List.foldl_cons, beq_false_of_ne h]
  rfl

theorem escapesNext_pair (c : Char) (cs : List Char) :
    escapesNext ('\\' :: c :: cs) = escapesNext cs := by
  simp [escapesNext]

namespace QuotedBody

variable {body : List Char}

theorem oneLine (h : QuotedBody body) : '\n' ∉ body ∧ '\r' ∉ body := by
  induction h with
  | nil => simp
  | @char c cs h _ ih =>
    simp only [List.mem_cons, List.not_mem_nil, or_false, not_or] at h
    simp [ih, Ne.symm h.2.2.1, Ne.symm h.2.2.2]
  | @escape c cs h _ ih =>
    have hc : c ≠ '\n' ∧ c ≠ '\r' := by
      constructor <;> rintro rfl <;> exact absurd h (by decide)
    simp [ih, Ne.symm hc.1, Ne.symm hc.2]

theorem escapesNext (h : QuotedBody body) : SchemaGen.escapesNext body = false := by
  induction h with
  | nil => rfl
  | @char c cs h _ ih => rw [escapesNext_cons (by rintro rfl; exact h (by decide)), ih]
  | escape _ _ ih => rw [escapesNext_pair, ih]

/-- Each quote inside is escaped. -/
theorem escaped (h : QuotedBody body) {front back : List Char}
    (he : body = front ++ '\'' :: back) : SchemaGen.escapesNext front = true := by
  induction h generalizing front with
  | nil => simp at he
  | @char c cs h _ ih =>
    cases front with
    | nil =>
      cases he
      exact absurd (by decide) h
    | cons d front =>
      cases he
      rw [escapesNext_cons (by rintro rfl; exact h (by decide)), ih rfl]
  | @escape c cs h _ ih =>
    match front, he with
    | [], he => cases he
    | [d], he =>
      cases he
      rfl
    | d :: e :: front, he =>
      cases he
      rw [escapesNext_pair, ih rfl]

/-- In quotes, the first and the last quote alone are not escaped. -/
theorem marks (h : QuotedBody body) {front back : List Char}
    (he : '\'' :: (body ++ ['\'']) = front ++ '\'' :: back) :
    SchemaGen.escapesNext front = false ↔ front = [] ∨ back = [] := by
  cases front with
  | nil => simp [SchemaGen.escapesNext]
  | cons c front =>
    rw [List.cons_append, List.cons.injEq] at he
    obtain ⟨rfl, he⟩ := he
    rw [escapesNext_cons (by decide)]
    rcases List.eq_nil_or_concat back with rfl | ⟨inner, c, rfl⟩
    · obtain rfl : body = front := List.append_cancel_right he
      simp [h.escapesNext]
    · rw [List.concat_eq_append, ← List.cons_append, ← List.append_assoc] at he
      have hinner := h.escaped (List.append_inj' he rfl).1
      simp [hinner]

end QuotedBody

theorem literalRest?_char {mark c : Char} (hm : c ≠ mark) (hc : c ∉ ['\\', '\n', '\r'])
    (cs : List Char) : literalRest? mark (c :: cs) =
      (literalRest? mark cs).map fun (us, after) => (codeUnits c.toNat ++ us, after) := by
  simp only [List.mem_cons, List.not_mem_nil, or_false, not_or] at hc
  rw [literalRest?, if_neg hm, if_neg hc.1, if_neg (by simp [hc.2])]

theorem literalRest?_escape {mark : Char} (hm : mark ≠ '\\') {cs tail : List Char}
    {us : List UInt16} (h : escapeSequence? cs = some (us, tail)) :
    literalRest? mark ('\\' :: cs) =
      (literalRest? mark tail).map fun (vs, after) => (us ++ vs, after) := by
  rw [literalRest?, if_neg (Ne.symm hm), if_pos rfl]
  split
  · next hn => rw [hn] at h; cases h
  · next hs => rw [hs] at h; cases h; rfl

theorem literalRest?_escapeChar (c : Char) (cs : List Char) :
    literalRest? '\'' (escapeChar c ++ cs) =
      (literalRest? '\'' cs).map fun (us, after) => (codeUnits c.toNat ++ us, after) := by
  fun_cases escapeChar c
  case case6 hs hq hn hr _ =>
    exact literalRest?_char hq (by simpa using ⟨hs, hn, hr⟩) cs
  all_goals exact literalRest?_escape (by decide) rfl

theorem literalRest?_quoted (cs rest : List Char) :
    literalRest? '\'' (cs.flatMap escapeChar ++ '\'' :: rest) =
      some (cs.flatMap fun c => codeUnits c.toNat, rest) := by
  induction cs with
  | nil => rw [List.flatMap_nil, List.nil_append, literalRest?, if_pos rfl, List.flatMap_nil]
  | cons c cs ih =>
    rw [List.flatMap_cons, List.append_assoc, literalRest?_escapeChar, ih, List.flatMap_cons]
    rfl

theorem stringLiteral?_quote (s : String) (rest : List Char) :
    stringLiteral? ((quote s).toList ++ rest) = some (units s, rest) := by
  rw [quote_toList, List.cons_append, List.append_assoc]
  exact literalRest?_quoted s.toList rest

namespace Idl

open Peg Reader

theorem Mirrors.parses_none {α : Type} {n : Nat} {e : Expr Rule} {p : Reader α}
    {V : List ParseTree → α → Prop} {cs : List Char} (h : Mirrors n e p V) (hn : cs.length < n)
    (hs : Settled cs) (hp : p cs = none) : grammar.Parses .spaced e cs none := by
  cases h cs hn hs with
  | fails he _ => exact he
  | finds _ hf _ => rw [hp] at hf; cases hf

theorem quotedRest_quote (s : String) (rest : List Char) :
    ∃ body, (quote s).toList ++ rest = '\'' :: body ∧
      quotedRest '\'' body = some (s.toList, rest) := by
  refine ⟨s.toList.flatMap escapeChar ++ '\'' :: rest, ?_,
    CallTree.quotedRest_flatMap s.toList rest⟩
  rw [quote_toList, List.cons_append, List.append_assoc]
  rfl

/-- Text in single quotes is no number and no truth value. -/
theorem only_quoted (body : List Char) : double ('\'' :: body) = none ∧
    int ('\'' :: body) = none ∧ truth ('\'' :: body) = none := by
  have hspans : intSpan ('\'' :: body) = none ∧ doubleSpan ('\'' :: body) = none :=
    spans_of_not_startsNumber (by rintro _ ⟨⟩; rfl)
  obtain ⟨hi, hd⟩ := hspans
  refine ⟨double_eq_none.mpr hd, by rw [int_eq, hi]; rfl, ?_⟩
  rfl

theorem constValue_quote (s : String) (rest : List Char) :
    constValue ((quote s).toList ++ rest) = some (.string s, skip rest) := by
  obtain ⟨body, hb, hq⟩ := quotedRest_quote s rest
  obtain ⟨hd, hi, ht⟩ := only_quoted body
  have hquoted : quoted ('\'' :: body) = some (s, skip rest) := by
    simp [quoted, hq]
  rw [hb, constValue, constUpTo, either_of_none (map_eq_none.mpr hd),
    either_of_none (map_eq_none.mpr hi), either_of_none (map_eq_none.mpr ht)]
  exact either_of_some (by rw [map_apply, hquoted]; rfl)

/-- The grammar matches a quoted text up to its closing quote. -/
theorem parses_quote (s : String) (source rest : List Char) : ∃ t : ParseTree,
    grammar.Parses .spaced (.rule .constValue) ((quote s).toList ++ rest) (some (rest, [t])) ∧
      ParseTree.constValue source t = .ok (.string s) := by
  obtain ⟨body, hb, hq⟩ := quotedRest_quote s rest
  obtain ⟨hd, hi, ht⟩ := only_quoted body
  have hs : Settled ('\'' :: body) := skip_cons body (by decide)
  have hl := Nat.lt_succ_self ('\'' :: body).length
  rcases quotedForm_agrees '\'' .singleQuoted rfl rfl (by decide) body
    with ⟨hn, -⟩ | ⟨t, tail, ht', he⟩
  · rw [hq] at hn
    cases hn
  · rw [hq, Option.some.injEq, Prod.mk.injEq] at ht'
    obtain ⟨hu, rfl⟩ := ht'
    have hdouble : grammar.Parses .compound (quotedForm '"' .doubleQuoted) ('\'' :: body) none :=
      quotedForm_start '"' .doubleQuoted (by simp)
    have hrule := Grammar.Parses.rule (g := grammar) (m := .spaced) (r := .quoted)
      (.second hdouble he)
    have hbody : grammar.Parses .spaced (Grammar.body .constValue) ('\'' :: body)
        (some (rest, _)) :=
      .second (double_mirrors.parses_none hl hs hd) (.second (int_mirrors.parses_none hl hs hi)
        (.second (truth_mirrors.parses_none hl hs ht) (.first hrule)))
    have hconst := Grammar.Parses.rule (g := grammar) (m := .spaced) (r := .constValue) hbody
    rw [Mirrors.nodes_eq (by simp), Mirrors.nodes_eq (by simp)] at hconst
    rw [hb]
    refine ⟨_, hconst, ?_⟩
    simp [ParseTree.constValue, ParseTree.quoted, ParseTree.expect, ← hu]

theorem parse_quote (s : String) : parse ("const string text = " ++ quote s) =
    .ok ⟨[], [.const (.base .string) "text" (.string s)]⟩ := by
  obtain ⟨body, hb, hq⟩ := quotedRest_quote s []
  rw [List.append_nil] at hb
  have htakes : (Token.quoted s).Takes ('\'' :: body) [] := ⟨'\'', by decide, body, rfl, hq⟩
  have hvalue : Run ('\'' :: body) [.quoted s] [] := .single htakes
  have hname : Run ("text = ".toList ++ '\'' :: body) [.name "text", .mark "=", .quoted s] [] :=
    .cons ⟨rfl, by rintro _ ⟨⟩; rfl, rfl⟩ (.cons ⟨rfl, rfl⟩ hvalue)
  have hrun : Run ("const string text = ".toList ++ '\'' :: body)
      [.mark "const", .name "string", .name "text", .mark "=", .quoted s] [] :=
    .cons ⟨rfl, rfl⟩ (.cons ⟨rfl, by rintro _ ⟨⟩; rfl, rfl⟩ hname)
  have htype : FieldType.Spells (.base .string) [.name "string"] := .base .string ⟨none, .absent⟩
  rw [parse_eq_ok_iff_spells, String.toList_append, hb]
  exact ⟨_, .mk .nil (.cons (.const htype (.string s)) .absent .nil), hrun⟩

end Idl

/-- Quoting is undone by a reader of the emitted language and by the reader of definitions. -/
theorem quote_denotes (s : String) : Denotes (quote s) s := by
  have hbody := quotedBody_escape s.toList
  have hform := quote_toList s
  exact {
    opening := ⟨_, hform⟩
    oneLine := by simpa [hform] using hbody.oneLine
    marks := fun front back he => hbody.marks (hform ▸ he)
    literal := stringLiteral?_quote s
    constant := Idl.constValue_quote s
    tree := Idl.parses_quote s
    definition := Idl.parse_quote s }

/-- What an earlier replacement has put in is not escaped again. -/
example : quote "\\'\n" = "'\\\\\\'\\n'" := by decide

end SchemaGen
