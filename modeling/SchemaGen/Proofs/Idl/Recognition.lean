import SchemaGen.Derive.Source
import SchemaGen.Proofs.Idl.DefinitionMirror

namespace SchemaGen.Idl

open Peg Reader

/-- The whole text matches the grammar and leaves some trees. -/
def Matches (source : String) (ts : List ParseTree) : Prop :=
  grammar.Parses .spaced (.rule .document) source.toList (some ([], ts))

/-- Nothing, at the end of a text. -/
def atEnd : Reader Unit := fun cs => if cs = [] then some ((), []) else none

/-- A document that fills the text. -/
def whole : Reader Document := do
  let headers ← many header
  let definitions ← many definition
  atEnd
  pure ⟨headers, definitions⟩

theorem whole_eq_some {cs rest : List Char} {d : Document} :
    whole cs = some (d, rest) ↔ document cs = some (d, []) ∧ rest = [] := by
  simp only [whole, document, bind_eq_some, pure_apply, Option.some.injEq, Prod.mk.injEq]
  constructor
  · rintro ⟨headers, mid, hh, definitions, last, hd, _, r, he, rfl, rfl⟩
    by_cases hn : last = []
    · subst hn
      cases he
      exact ⟨⟨headers, mid, hh, definitions, [], hd, rfl, rfl⟩, rfl⟩
    · rw [atEnd, if_neg hn] at he
      cases he
  · rintro ⟨⟨headers, mid, hh, definitions, last, hd, rfl, rfl⟩, rfl⟩
    exact ⟨headers, mid, hh, definitions, [], hd, (), [], rfl, rfl, rfl⟩

variable {n : Nat} (source : List Char)

theorem atEnd_mirrors :
    Mirrors n (.rule .endOfInput) atEnd (Keeps (ParseTree.documentPart source) fun d _ => d) := by
  apply Mirrors.node rfl
  intro cs _ _
  by_cases h : cs = []
  · subst h
    refine .finds (a := ()) .endOfText ?_ fun _ _ _ => rfl
    rfl
  · exact .fails (.endOfText_none h) (by rw [atEnd, if_neg h])

theorem header_consumes : Consumes header := header_spelling.consumes header_repeats.nonempty

theorem definition_consumes : Consumes definition :=
  definition_spelling.consumes definition_repeats.nonempty

theorem whole_mirrors :
    Mirrors n (.seqs [.many Grammar.header, .many Grammar.definition, .rule .endOfInput]) whole
      fun ns d => ns.foldlM (ParseTree.documentPart source) ⟨[], []⟩ = .ok d := by
  refine ((header_mirrors source).many header_consumes).bind fun hs headers hheaders => ?_
  refine ((definition_mirrors source).many definition_consumes).bind
    fun ds definitions hdefinitions => ?_
  refine (atEnd_mirrors source).last fun es _ hend => ?_
  have hh := Each.keeps (g := fun (d : Document) xs => { d with headers := d.headers ++ xs })
    hheaders (by simp) (by simp)
  have hd := Each.keeps (g := fun (d : Document) xs =>
    { d with definitions := d.definitions ++ xs }) hdefinitions (by simp) (by simp)
  rw [foldlM_append_ok (hh _), foldlM_append_ok (hd _), hend]
  rfl

theorem parse_of_whole {source : String} {d : Document} {rest : List Char}
    (h : whole (skip source.toList) = some (d, rest)) : parse source = .ok d :=
  parse_eq_ok.mpr (whole_eq_some.mp h).1

theorem parse_of_whole_none {source : String} (h : whole (skip source.toList) = none) :
    parse source = .error (diagnose source) := by
  cases hp : document? source with
  | none => rw [parse, hp]
  | some d =>
    have hd : parse source = .ok d := by rw [parse, hp]
    rw [whole_eq_some.mpr ⟨parse_eq_ok.mp hd, rfl⟩] at h
    cases h

/-- A match of a document leaves nothing of the text. -/
theorem rest_of_document {cs rest : List Char} {ts : List ParseTree}
    (h : grammar.Parses .spaced (.rule .document) cs (some (rest, ts))) : rest = [] := by
  obtain ⟨_, -, h⟩ := h.of_rule
  obtain ⟨_, _, h⟩ := h.of_seq
  obtain ⟨_, _, h⟩ := h.of_seq
  obtain ⟨_, _, h⟩ := h.of_seq
  obtain ⟨_, -, h⟩ := h.of_rule
  cases h with
  | endOfText => rfl

/-- Either the grammar fails on a text and so does the reader, or it matches the whole text and the
walk makes of its trees what is read. -/
theorem matches_or_fails (source : String) :
    (grammar.Parses .spaced (.rule .document) source.toList none ∧
      parse source = .error (diagnose source)) ∨
    ∃ ts d, Matches source ts ∧ ParseTree.document source.toList ts = .ok d ∧
      parse source = .ok d := by
  have hstart : grammar.Parses .spaced .empty source.toList (some (source.toList, [])) := .empty
  have hgap := spans_gap source.toList
  cases whole_mirrors source.toList (skip source.toList) (Nat.lt_succ_self _) (settled_skip _) with
  | fails he hp => exact .inl ⟨.rule_none (.seq_second hstart hgap he), parse_of_whole_none hp⟩
  | @finds d after ns he hp hv =>
    have hdoc := Grammar.Parses.rule (g := grammar) (r := .document) (.seq hstart hgap he)
    rw [Mirrors.nodes_eq (by simp)] at hdoc
    have hrest := rest_of_document hdoc
    subst hrest
    exact .inr ⟨_, d, hdoc, hv, parse_of_whole hp⟩

/-- A text is accepted exactly when the grammar matches the whole of it. The walk over the trees of
a match then fails nowhere and gives the document, and a text that is refused has one diagnostic. -/
theorem parse_iff_matches (source : String) :
    ((∃ d, parse source = .ok d) ↔ ∃ ts, Matches source ts) ∧
    (∀ rest ts, grammar.Parses .spaced (.rule .document) source.toList (some (rest, ts)) →
      rest = [] ∧ ∃ d, ParseTree.document source.toList ts = .ok d ∧ parse source = .ok d) ∧
    ∀ ds, standardParser source = .error ds → ds = [diagnose source] := by
  have hcases := matches_or_fails source
  refine ⟨⟨?_, ?_⟩, ?_, ?_⟩
  · rintro ⟨d, hd⟩
    rcases hcases with ⟨-, he⟩ | ⟨ts, -, hm, -, -⟩
    · rw [he] at hd
      cases hd
    · exact ⟨ts, hm⟩
  · rintro ⟨ts, hm⟩
    rcases hcases with ⟨hn, -⟩ | ⟨_, d, -, -, hd⟩
    · cases hn.unique hm
    · exact ⟨d, hd⟩
  · intro rest ts h
    rcases hcases with ⟨hn, -⟩ | ⟨us, d, hm, hw, hd⟩
    · cases hn.unique h
    · cases hm.unique h
      exact ⟨rfl, d, hw, hd⟩
  · intro ds hds
    rcases hcases with ⟨-, he⟩ | ⟨_, d, -, -, hd⟩
    · rw [standardParser, he] at hds
      cases hds
      rfl
    · rw [standardParser, hd] at hds
      cases hds

/-- A header and an enum with a comment match the grammar, and the walk gives what is read. -/
theorem enum_matches :
    ∃ ts, Matches "namespace * a enum E\x7bA/**/\x7d" ts ∧
      ∃ d, ParseTree.document "namespace * a enum E\x7bA/**/\x7d".toList ts = .ok d := by
  have h := parse_iff_matches "namespace * a enum E\x7bA/**/\x7d"
  obtain ⟨ts, hm⟩ := h.1.mp ⟨⟨[.ns "*" "a"], [.enum "E" [⟨"A", none⟩]]⟩, by rfl⟩
  obtain ⟨-, d, hd, -⟩ := h.2.1 [] ts hm
  exact ⟨ts, hm, d, hd⟩

end SchemaGen.Idl
