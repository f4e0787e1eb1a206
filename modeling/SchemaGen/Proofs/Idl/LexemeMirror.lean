import Mathlib.Data.String.Basic
import SchemaGen.Proofs.Idl.Mirror
import SchemaGen.Proofs.Idl.Reads

namespace SchemaGen.Idl

open Peg Reader

theorem nameSpan_append (cs text rest : List Char) (h : nameSpan cs = some (text, rest)) :
    cs = text ++ rest := by
  match cs with
  | [] => cases h
  | c :: cs =>
    simp only [nameSpan] at h
    split at h
    · cases h
      exact List.takeWhile_append_dropWhile.symm
    · cases h

theorem scopeSpan_append (cs text rest : List Char) (h : scopeSpan cs = some (text, rest)) :
    cs = text ++ rest := by
  unfold scopeSpan at h
  split at h
  · cases h
    rfl
  · exact nameSpan_append _ _ _ h

theorem scope_eq (cs : List Char) :
    scope cs = (scopeSpan cs).map fun (text, rest) => (String.ofList text, skip rest) := by
  unfold scopeSpan
  split
  · next rest =>
    have ht : token "*" ('*' :: rest) = some ((), skip rest) := token_eq_some.mpr ⟨rest, rfl, rfl⟩
    rw [scope, either_of_some]
    · rfl
    · rw [bind_of_some ht]
      rfl
  · next hne =>
    rw [scope, either_of_none, identifier_eq]
    rw [bind_pure_eq_none]
    exact token_of_ne rfl hne

variable {words : List String}

theorem wordSpan_append (cs text rest : List Char) (h : wordSpan words cs = some (text, rest)) :
    cs = text ++ rest := by
  unfold wordSpan at h
  split at h
  · cases h
    exact List.takeWhile_append_dropWhile.symm
  · cases h

theorem word_eq (w : String) (cs : List Char) :
    word w cs = (wordSpan [w] cs).map fun (_, rest) => ((), skip rest) := by
  simp only [word, wordSpan, List.mem_singleton, String.ofList_eq]
  split <;> rfl

/-- One of two words that stand for values. -/
theorem either_word_eq {α : Type} {v w : String} (value : String → α) (cs : List Char) :
    either (do word v; pure (value v)) (do word w; pure (value w)) cs =
      (wordSpan [v, w] cs).map fun (text, rest) => (value (String.ofList text), skip rest) := by
  by_cases hv : cs.takeWhile isNameChar = v.toList
  · have hw : word v cs = some ((), skip (cs.dropWhile isNameChar)) := by rw [word, if_pos hv]
    rw [either_of_some (bind_of_some hw), wordSpan, if_pos (by simp [hv])]
    simp [hv]
  · have hn : word v cs = none := by rw [word, if_neg hv]
    rw [either_of_none (bind_of_none hn)]
    by_cases hw : cs.takeWhile isNameChar = w.toList
    · have hs : word w cs = some ((), skip (cs.dropWhile isNameChar)) := by rw [word, if_pos hw]
      rw [bind_of_some hs, wordSpan, if_pos (by simp [hw])]
      simp [hw]
    · have hs : word w cs = none := by rw [word, if_neg hw]
      rw [bind_of_none hs, wordSpan, if_neg (by simp [String.ofList_eq, hv, hw])]
      rfl

/-- The words of the base types. -/
def baseNames : List String := BaseType.all.map BaseType.name

theorem ofName?_eq_none {n : String} (h : BaseType.ofName? n = none) : n ∉ baseNames := by
  intro hm
  obtain ⟨b, -, rfl⟩ := List.mem_map.mp hm
  rw [ofName?_eq_some.mpr rfl] at h
  cases h

theorem mem_baseNames (b : BaseType) : b.name ∈ baseNames := by
  cases b <;> decide

theorem baseType_eq (cs : List Char) :
    (FieldType.base <$> baseType) cs =
      (wordSpan baseNames cs).map fun (text, rest) =>
        (ParseTree.baseType (String.ofList text), skip rest) := by
  rw [map_apply, baseType]
  cases hb : BaseType.ofName? (String.ofList (cs.takeWhile isNameChar)) with
  | none =>
    rw [wordSpan, if_neg (ofName?_eq_none hb)]
    rfl
  | some b =>
    have hm := mem_baseNames b
    rw [← ofName?_eq_some.mp hb] at hm
    rw [wordSpan, if_pos hm]
    simp [ParseTree.baseType, hb]

theorem separator_eq : separator = (fun _ => ()) <$> maybe (either (token ",") (token ";")) := by
  funext cs
  rw [map_apply]
  unfold separator
  split
  · simp [maybe, either, token, dropText?]
  · simp [maybe, either, token, dropText?]
  · next hc hs =>
    rw [maybe_of_none (either_eq_none.mpr ⟨token_of_ne rfl hc, token_of_ne rfl hs⟩)]
    rfl

/-- A lexeme that is one of several words. -/
theorem Mirrors.wholeWord {α : Type} {n : Nat} {r : Rule} {p : Reader α} {w : String → α}
    (hr : Grammar.scope r = .atomic) (hb : Grammar.body r = Grammar.wholeWord words)
    (hw : Apart words)
    (hp : ∀ cs, p cs = (wordSpan words cs).map fun (text, rest) =>
      (w (String.ofList text), skip rest)) :
    Mirrors n (.rule r) p (One r fun t => .ok (w (ParseTree.name t))) :=
  .lexeme hr (hb ▸ spans_wholeWord hw) wordSpan_append hp

section Lexemes

variable {n : Nat}

theorem token_mirrors (text : String) :
    Mirrors n (.literal text) (token text) fun ns _ => ns = [] := by
  intro cs hn hs
  cases hd : dropText? text.toList cs with
  | none =>
    refine .fails (.literal_none ?_) (by rw [token, hd]; rfl)
    rintro ⟨rest, hr⟩
    rw [dropText?_eq_some.mpr hr.symm] at hd
    cases hd
  | some rest =>
    rw [dropText?_eq_some.mp hd]
    exact .finds (a := ()) .literal (token_eq_some.mpr ⟨rest, rfl, rfl⟩) rfl

theorem identifier_mirrors :
    Mirrors n (.rule .identifier) identifier (One .identifier fun t => .ok (ParseTree.name t)) :=
  .lexeme (w := id) rfl spans_name nameSpan_append identifier_eq

theorem int_mirrors : Mirrors n (.rule .int) int (One .int fun t => .ok (ParseTree.name t)) :=
  .lexeme (w := id) rfl spans_int (fun _ _ _ => intSpan_append) int_eq

theorem double_mirrors :
    Mirrors n (.rule .double) double (One .double fun t => .ok (ParseTree.name t)) :=
  .lexeme (w := id) rfl spans_double (fun _ _ _ => doubleSpan_append) double_eq

theorem scope_mirrors :
    Mirrors n (.rule .scope) scope (One .scope fun t => .ok (ParseTree.name t)) :=
  .lexeme (w := id) rfl spans_scope scopeSpan_append scope_eq

theorem truth_mirrors :
    Mirrors n (.rule .bool) truth (One .bool fun t => .ok (ParseTree.name t == "true")) :=
  .wholeWord (w := fun text => text == "true") rfl rfl ⟨by simp, by decide, by decide⟩
    (either_word_eq fun text => text == "true")

theorem requiredness_mirrors :
    Mirrors n (.rule .requiredness) requiredness
      (One .requiredness fun t => .ok (ParseTree.requiredness (ParseTree.name t))) :=
  .wholeWord rfl rfl ⟨by simp, by decide, by decide⟩ (either_word_eq ParseTree.requiredness)

theorem oneway_mirrors :
    Mirrors n (.rule .oneway) (word "oneway") (One .oneway fun _ => .ok ()) :=
  .wholeWord (w := fun _ => ()) rfl rfl ⟨by simp, by decide, by decide⟩ (word_eq "oneway")

theorem baseType_mirrors :
    Mirrors n (.rule .baseType) (FieldType.base <$> baseType)
      (One .baseType fun t => .ok (ParseTree.baseType (ParseTree.name t))) :=
  .wholeWord rfl rfl ⟨by simp, by decide, by decide⟩ baseType_eq

theorem separator_mirrors : Mirrors n Grammar.listSeparator separator fun ns _ => ns = [] := by
  rw [separator_eq]
  apply ((token_mirrors ",").either (token_mirrors ";")).maybe.map
  intro ns x h
  cases h with
  | absent => rfl
  | present h => exact h

end Lexemes

section Quoted

variable (mark : Char) (r : Rule)

/-- Text between two marks, its contents under a rule. -/
def quotedForm : Expr Rule :=
  .seqs [.literal (String.ofList [mark]), .rule r, .literal (String.ofList [mark])]

theorem quotedForm_start {cs : List Char} (h : ∀ rest, cs ≠ mark :: rest) :
    grammar.Parses .compound (quotedForm mark r) cs none := by
  apply Grammar.Parses.seq_first
  apply Grammar.Parses.literal_none
  rintro ⟨rest, hr⟩
  rw [String.toList_ofList] at hr
  exact h rest hr.symm

omit r in
theorem mark_parses {m : Mode} (rest : List Char) :
    grammar.Parses m (.literal (String.ofList [mark])) (mark :: rest) (some (rest, [])) := by
  have h : grammar.Parses m (.literal (String.ofList [mark]))
      ((String.ofList [mark]).toList ++ rest) (some (rest, [])) := .literal
  rwa [String.toList_ofList] at h

section

variable (hr : Grammar.scope r = .atomic)
  (hb : Grammar.body r = Grammar.quotedText (String.ofList [mark]))
include hr hb

theorem content_parses (rest : List Char) :
    grammar.Parses .compound (.rule r) rest
      (some ((contentSpan mark rest).2, [⟨r, rest, (contentSpan mark rest).1, []⟩])) := by
  have hbody := spans_quotedText mark rest
  rw [← hb] at hbody
  have hinner : (grammar.scope r).inner .compound = .atomic := by
    change (Grammar.scope r).inner .compound = .atomic
    rw [hr]
    rfl
  have h := Grammar.Parses.rule (g := grammar) (m := .compound) (r := r)
    (by rw [hinner]; exact hbody)
  rw [Mirrors.nodes_eq (by simp), Mirrors.take_span (contentSpan_append mark rest).symm] at h
  exact h

theorem quotedForm_closed {rest tail : List Char} (h : (contentSpan mark rest).2 = mark :: tail) :
    grammar.Parses .compound (quotedForm mark r) (mark :: rest)
      (some (tail, [⟨r, rest, (contentSpan mark rest).1, []⟩])) := by
  have hcontent := content_parses mark r hr hb rest
  rw [h] at hcontent
  exact .seq (mark_parses mark rest) .empty (.seq hcontent .empty (mark_parses mark tail))

theorem quotedForm_open {rest : List Char} (h : dropText? [mark] (contentSpan mark rest).2 = none) :
    grammar.Parses .compound (quotedForm mark r) (mark :: rest) none := by
  refine .seq_second (mark_parses mark rest) .empty
    (.seq_second (content_parses mark r hr hb rest) .empty (.literal_none ?_))
  rintro ⟨tail, ht⟩
  rw [String.toList_ofList] at ht
  rw [dropText?_eq_some.mpr ht.symm] at h
  cases h

/-- After its first mark, text in quotes is read as the grammar has it. -/
theorem quotedForm_agrees (hm : mark ∈ quoteMarks) (rest : List Char) :
    (quotedRest mark rest = none ∧
      grammar.Parses .compound (quotedForm mark r) (mark :: rest) none) ∨
    ∃ (t : ParseTree) (tail : List Char),
      quotedRest mark rest = some (ParseTree.unescapeAll t.text, tail) ∧
      grammar.Parses .compound (quotedForm mark r) (mark :: rest) (some (tail, [t])) := by
  have hq := quotedRest_eq hm rest
  cases hd : dropText? [mark] (contentSpan mark rest).2 with
  | none =>
    rw [hd] at hq
    exact .inl ⟨hq, quotedForm_open mark r hr hb hd⟩
  | some tail =>
    rw [hd] at hq
    have hc := quotedForm_closed mark r hr hb (dropText?_eq_some.mp hd)
    exact .inr ⟨⟨r, rest, (contentSpan mark rest).1, []⟩, tail, hq, hc⟩

end

variable {n : Nat} {cs : List Char}

theorem quoted_finds {source tail : List Char} {t : ParseTree}
    (he : grammar.Parses .compound (Grammar.body .quoted) cs (some (tail, [t])))
    (hq : quoted cs = some (String.ofList (ParseTree.unescapeAll t.text), skip tail)) :
    Agrees (.rule .quoted) quoted (One .quoted (ParseTree.quoted source)) cs := by
  have hrule := Grammar.Parses.rule (g := grammar) (m := .spaced) (r := .quoted) he
  rw [Mirrors.nodes_eq (by simp)] at hrule
  exact .finds hrule hq ⟨_, rfl, rfl, rfl⟩

theorem quoted_mirrors (source : List Char) :
    Mirrors n (.rule .quoted) quoted (One .quoted (ParseTree.quoted source)) := by
  intro cs hn hs
  by_cases hd : ∃ rest, cs = '"' :: rest
  · obtain ⟨rest, rfl⟩ := hd
    have hne : ∀ tail, '"' :: rest ≠ '\'' :: tail := by simp
    have hother := quotedForm_start '\'' .singleQuoted hne
    rcases quotedForm_agrees '"' .doubleQuoted rfl rfl (by decide) rest
      with ⟨hq, he⟩ | ⟨t, tail, hq, he⟩
    · exact .fails (.rule_none (.second he hother)) (by rw [quoted, hq]; rfl)
    · exact quoted_finds (.first he) (by rw [quoted, hq]; rfl)
  · have hdouble := quotedForm_start '"' .doubleQuoted fun rest h => hd ⟨rest, h⟩
    by_cases hq : ∃ rest, cs = '\'' :: rest
    · obtain ⟨rest, rfl⟩ := hq
      rcases quotedForm_agrees '\'' .singleQuoted rfl rfl (by decide) rest
        with ⟨hq, he⟩ | ⟨t, tail, hq, he⟩
      · exact .fails (.rule_none (.second hdouble he)) (by rw [quoted, hq]; rfl)
      · exact quoted_finds (.second hdouble he) (by rw [quoted, hq]; rfl)
    · have hsingle := quotedForm_start '\'' .singleQuoted fun rest h => hq ⟨rest, h⟩
      refine .fails (.rule_none (.second hdouble hsingle)) ?_
      apply quoted_of_ne
      intro c hc tail he
      simp only [quoteMarks, List.mem_cons, List.not_mem_nil, or_false] at hc
      rcases hc with rfl | rfl
      · exact hd ⟨tail, he⟩
      · exact hq ⟨tail, he⟩

end Quoted

end SchemaGen.Idl
