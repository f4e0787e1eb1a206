import SchemaGen.Derive.Source
import SchemaGen.Proofs.Derive.Session
import SchemaGen.Proofs.Idl.DocumentCompleteness

namespace SchemaGen

open Idl

/-- The definitions of a text without headers may follow any text on a new line. -/
theorem parse_newline {front back : String} {d e : Document} (hd : parse front = .ok d)
    (he : parse back = .ok e) (hh : e.headers = []) :
    parse (front ++ "\n" ++ back) = .ok ⟨d.headers, d.definitions ++ e.definitions⟩ := by
  obtain ⟨ts, hts, run⟩ := parse_eq_ok_iff_spells.mp hd
  obtain ⟨us, hus, run'⟩ := parse_eq_ok_iff_spells.mp he
  rw [parse_eq_ok_iff_spells]
  have htext : (front ++ "\n" ++ back).toList = front.toList ++ '\n' :: back.toList := by simp
  rw [htext]
  refine ⟨ts ++ us, ?_, run.newline run'⟩
  cases hts with
  | @mk hs ds hfront hds =>
    cases hus with
    | @mk gs es hback hes =>
      rw [hh] at hback
      cases hback
      rw [List.nil_append, List.append_assoc]
      refine .mk hfront ?_
      rw [items_iff_row] at hds hes ⊢
      exact hds.append hes

theorem deriveSource_of_parse {source : String} {d : Document} (h : parse source = .ok d)
    (options : Options) : deriveSource options source = .ok (deriveDocument options d) := by
  simp only [deriveSource, deriveWith, standardParser, h]

theorem deriveSource_of_parse_error {source : String} {e : Diagnostic}
    (h : parse source = .error e) (options : Options) :
    deriveSource options source = .error (.malformed none [e]) := by
  simp only [deriveSource, deriveWith, standardParser, h]

theorem parse_of_deriveSource {options : Options} {source : String} {derived : Derived}
    (h : deriveSource options source = .ok derived) :
    ∃ d, parse source = .ok d ∧ derived = deriveDocument options d := by
  cases hp : parse source with
  | error e =>
    rw [deriveSource_of_parse_error hp] at h
    cases h
  | ok d =>
    rw [deriveSource_of_parse hp] at h
    exact ⟨d, rfl, (Except.ok.inj h).symm⟩

/-- Deriving is compositional: a text without headers after another text adds its definitions,
its structs and its warnings to theirs. -/
theorem deriveSource_newline {front back : String} {d e : Document} (hd : parse front = .ok d)
    (he : parse back = .ok e) (hh : e.headers = []) (options : Options) :
    parse (front ++ "\n" ++ back) = .ok ⟨d.headers, d.definitions ++ e.definitions⟩ ∧
      ∃ first second, deriveSource options front = .ok first ∧
        deriveSource options back = .ok second ∧
        deriveSource options (front ++ "\n" ++ back) =
          .ok ⟨first.structs ++ second.structs, first.warnings ++ second.warnings⟩ := by
  have hp := parse_newline hd he hh
  refine ⟨hp, _, _, deriveSource_of_parse hd options, deriveSource_of_parse he options, ?_⟩
  rw [deriveSource_of_parse hp, deriveDocument_append options d.headers d.headers e.headers]

/-- A comment at the end of the first text ends with its line. -/
theorem deriveSource_newline_comment :
    parse ("enum A\x7b\x7d //" ++ "\n" ++ "enum B\x7bC\x7d") =
      .ok ⟨[], [.enum "A" [], .enum "B" [⟨"C", none⟩]]⟩ := by
  have hd : parse "enum A\x7b\x7d //" = .ok ⟨[], [.enum "A" []]⟩ := by rfl
  have he : parse "enum B\x7bC\x7d" = .ok ⟨[], [.enum "B" [⟨"C", none⟩]]⟩ := by rfl
  exact (deriveSource_newline hd he rfl {}).1

end SchemaGen
