import SchemaGen.Proofs.Idl.CanonicalDocument
import SchemaGen.Proofs.Idl.DocumentCompleteness

namespace SchemaGen.Idl

theorem Piece.front {p : List Char} (h : Piece p) : ∃ c cs, p = c :: cs ∧ separates c = true := by
  cases h with
  | @blank c h =>
    refine ⟨c, [], rfl, ?_⟩
    simp only [List.mem_cons, List.not_mem_nil, or_false] at h
    rcases h with rfl | rfl | rfl | rfl <;> decide
  | line ho _ _ =>
    rcases ho with rfl | rfl
    · exact ⟨'/', _, rfl, by decide⟩
    · exact ⟨'#', _, rfl, by decide⟩
  | block _ => exact ⟨'/', _, rfl, by decide⟩

theorem Pieces.front {gap : List Char} (h : Pieces gap) (hne : gap ≠ []) :
    ∃ c cs, gap = c :: cs ∧ separates c = true := by
  cases h with
  | nil => exact absurd rfl hne
  | cons hp _ =>
    obtain ⟨c, cs, rfl, hc⟩ := hp.front
    exact ⟨c, _, rfl, hc⟩

theorem Pieces.skip_append {gap : List Char} (h : Pieces gap) (cs : List Char) :
    skip (gap ++ cs) = skip cs := by
  induction h with
  | nil => rfl
  | cons hp _ ih => rw [List.append_assoc, skip_piece hp, ih]

theorem Pieces.skip_eq_nil {gap : List Char} (h : Pieces gap) : skip gap = [] := by
  have hs := h.skip_append []
  rwa [List.append_nil, skip_nil] at hs

namespace Token

theorem Takes.skip_eq {t : Token} {cs after : List Char} (h : t.Takes cs after) :
    skip cs = cs := by
  obtain ⟨c, tail, rfl, -, hc⟩ := h.start
  exact skip_cons tail hc

/-- A token that fills a text is taken alike before a blank or a comment. -/
theorem Takes.gap {t : Token} {cs gap : List Char} (h : t.Takes cs []) (hg : Pieces gap)
    (hne : gap ≠ []) (rest : List Char) : t.Takes (cs ++ (gap ++ rest)) (gap ++ rest) := by
  obtain ⟨c, tail, rfl, hc⟩ := hg.front hne
  exact h.separated hc (tail ++ rest)

end Token

theorem Layout.run {ts : List Token} {cs back : List Char} (h : Layout ts cs) (hv : Valid ts)
    (hb : Pieces back) : Run (skip (cs ++ back)) ts [] := by
  induction h with
  | nil =>
    rw [List.nil_append, hb.skip_eq_nil]
    exact .nil []
  | @single t cs ht =>
    have hcs := ht.takes (valid_cons.mp hv).1
    have hk : t.Takes (cs ++ back) back := by
      by_cases hne : back = []
      · subst hne
        rwa [List.append_nil]
      · have hg := hcs.gap hb hne []
        rwa [List.append_nil] at hg
    rw [hk.skip_eq]
    exact .cons hk (by rw [hb.skip_eq_nil]; exact .nil [])
  | @cons t u ts cs gap rest ht hg hne _ ih =>
    rw [valid_cons] at hv
    have hk := (ht.takes hv.1).gap hg hne (rest ++ back)
    rw [List.append_assoc, List.append_assoc, hk.skip_eq]
    exact .cons hk (by rw [hg.skip_append]; exact ih hv.2)

/-- Reading undoes printing: a printed document is read as itself, whatever the layout. -/
theorem parse_of_prints {source text : String} {d : Document} (h : parse source = .ok d)
    (hp : d.Prints text.toList) : parse text = .ok d := by
  obtain ⟨ts, hs, run⟩ := parse_eq_ok_iff_spells.mp h
  have canonical := Document.tokens_sayable ⟨hs, run.valid⟩
  generalize hcs : text.toList = cs at hp
  obtain ⟨hf, hl, hb⟩ := hp
  rw [parse_eq_ok_iff_spells, hcs, hf.skip_append]
  exact ⟨_, canonical.spells, hl.run canonical.valid hb⟩

theorem exists_written (t : Token) : ∃ cs, t.Written cs := by
  cases t with
  | mark text => exact ⟨_, .mark text⟩
  | name text => exact ⟨_, .name text⟩
  | index text => exact ⟨_, .index text⟩
  | int text => exact ⟨_, .int text⟩
  | double text => exact ⟨_, .double text⟩
  | quoted text => exact ⟨_, .quoted text (q := '"') (by decide)⟩

theorem blank_pieces {c : Char} (h : c ∈ [' ', '\t', '\r', '\n']) : Pieces [c] :=
  .cons (.blank h) .nil

theorem exists_layout (ts : List Token) : ∃ cs, Layout ts cs := by
  induction ts with
  | nil => exact ⟨[], .nil⟩
  | cons t ts ih =>
    obtain ⟨cs, ht⟩ := exists_written t
    obtain ⟨rest, hr⟩ := ih
    cases ts with
    | nil => exact ⟨cs, .single ht⟩
    | cons u ts => exact ⟨_, .cons ht (blank_pieces (c := ' ') (by simp)) (by simp) hr⟩

/-- Every document can be printed. -/
theorem exists_prints (d : Document) : ∃ text : String, d.Prints text.toList := by
  obtain ⟨cs, h⟩ := exists_layout d.tokens
  refine ⟨String.ofList ([] ++ (cs ++ [])), ?_⟩
  rw [String.toList_ofList]
  exact .mk .nil h .nil

/-- A member in base sixteen, printed in base ten with a comment and line breaks. -/
theorem parse_of_prints_enum :
    parse "enum E\x7bA=0x10\x7d" = .ok ⟨[], [.enum "E" [⟨"A", some 16⟩]]⟩ ∧
      parse "enum E\n\x7b A = 16 ,#x\n\x7d\t" = .ok ⟨[], [.enum "E" [⟨"A", some 16⟩]]⟩ := by
  have h : parse "enum E\x7bA=0x10\x7d" = .ok ⟨[], [.enum "E" [⟨"A", some 16⟩]]⟩ := by rfl
  refine ⟨h, parse_of_prints h ?_⟩
  have space : Pieces [' '] := blank_pieces (by simp)
  have line : Pieces ['\n'] := blank_pieces (by simp)
  have comment : Pieces "#x\n".toList := by
    have hp := @Piece.line ['#'] ['x'] '\n' (.inr rfl) (by simp [isBreak]) (by decide)
    exact .cons hp .nil
  have close : Layout [.mark "\x7d"] ['\x7d'] := .single (.mark "\x7d")
  have comma := Layout.cons (.mark ",") comment (by decide) close
  have value := Layout.cons (.index "16") space (by decide) comma
  have equals := Layout.cons (.mark "=") space (by decide) value
  have member := Layout.cons (.name "A") space (by decide) equals
  have brace := Layout.cons (.mark "\x7b") space (by decide) member
  have name := Layout.cons (.name "E") line (by decide) brace
  have all := Layout.cons (.mark "enum") space (by decide) name
  have tab : Pieces ['\t'] := blank_pieces (by simp)
  have printed := @Document.Prints.mk ⟨[], [.enum "E" [⟨"A", some 16⟩]]⟩ _ _ _ .nil all tab
  exact printed

end SchemaGen.Idl
