import SchemaGen.Idl.Contents
import SchemaGen.Proofs.Idl.Recognition
import SchemaGen.Proofs.Peg.Nodes

namespace SchemaGen.Idl

open Peg Grammar

/-- The keyword that a rule begins with. -/
def Rule.keyword? : Rule → Option String
  | .include => some "include"
  | .cppInclude => some "cpp_include"
  | .ns => some "namespace"
  | .constDef => some "const"
  | .typedefDef => some "typedef"
  | .enumDef => some "enum"
  | .structDef => some "struct"
  | .unionDef => some "union"
  | .exceptionDef => some "exception"
  | .serviceDef => some "service"
  | .extends => some "extends"
  | .throws => some "throws"
  | _ => none

/-- Whether quoted text or a parenthesis comes after the keyword of a rule. -/
def Rule.isSetApart (r : Rule) : Bool := r ∈ [.include, .cppInclude, .throws]

namespace ParseTree

/-- A name, a type or the scope of one language: a part that begins with a name character. -/
def IsWord (t : ParseTree) : Prop :=
  t.rule = .identifier ∨ t.rule = .fieldType ∨ t.rule = .scope ∧ t.text ≠ ['*']

/-- The first part of a node is a word, and it starts with a given end of the text. -/
def RunsOn (t : ParseTree) (after : List Char) : Prop :=
  ∃ p ∈ t.children.head?, p.start = after ∧ IsWord p

end ParseTree

theorem opens_oneOf {kind : Char → Bool} {words : List String} (hne : words ≠ [])
    (h : ∀ w ∈ words, ∃ c tail, w.toList = c :: tail ∧ kind c = true) :
    grammar.Opens kind (oneOf words) := by
  induction words with
  | nil => exact absurd rfl hne
  | cons w words ih =>
    rw [List.forall_mem_cons] at h
    obtain ⟨⟨c, tail, hw, hc⟩, hwords⟩ := h
    cases words with
    | nil => exact .literal hw hc
    | cons v words => exact .choice (.literal hw hc) (ih (by simp) hwords)

theorem opens_name : grammar.Opens isNameStart name := .seq (.char fun _ h => h)

theorem opens_baseType : grammar.Opens isNameStart (body .baseType) := by
  refine .seq (opens_oneOf (by simp) ?_)
  simp [isNameStart, isLetter]

theorem opens_fieldType : grammar.Opens isNameStart (body .fieldType) := by
  have hmap : grammar.Opens isNameStart (body .mapType) := .seq (.literal rfl rfl)
  have hset : grammar.Opens isNameStart (body .setType) := .seq (.literal rfl rfl)
  have hlist : grammar.Opens isNameStart (body .listType) := .seq (.literal rfl rfl)
  exact .choice
    (.seq (.choice (.rule opens_baseType) (.choice (.rule hmap) (.choice (.rule hset)
      (.rule hlist)))))
    (.rule (.rule opens_name))

theorem opens_quoted : grammar.Opens (fun c => !isNameChar c) (body .quoted) :=
  .choice (.seq (.literal rfl rfl)) (.seq (.literal rfl rfl))

section

variable {m : Mode} {cs rest : List Char} {ns : List ParseTree}

theorem not_stops_of_opens {e : Expr Rule} (ho : grammar.Opens isNameStart e)
    (h : grammar.Parses m e cs (some (rest, ns))) : ¬ Stops isNameChar cs := by
  obtain ⟨c, hc, hname⟩ := ho.head h
  intro hs
  have hstop := hs c hc
  rw [isNameChar_of_isNameStart hname] at hstop
  cases hstop

theorem stops_of_opens {e : Expr Rule} (ho : grammar.Opens (fun c => !isNameChar c) e)
    (h : grammar.Parses m e cs (some (rest, ns))) : Stops isNameChar cs := by
  obtain ⟨c, hc, hkind⟩ := ho.head h
  intro d hd
  obtain rfl := Option.mem_unique hc hd
  simpa using hkind

theorem stops_scope_iff (h : grammar.Parses m (body .scope) cs (some (rest, ns))) :
    Stops isNameChar cs ↔ cs.take (cs.length - rest.length) = ['*'] := by
  cases h with
  | first h =>
    cases h with
    | literal => simp [Stops, isNameChar, isLetter, isDigit]
  | second _ h =>
    refine iff_of_false (not_stops_of_opens opens_name h) fun htext => ?_
    obtain ⟨c, hc, hname⟩ := opens_name.head h
    obtain ⟨tail, rfl⟩ : ∃ tail, cs = '*' :: tail :=
      ⟨_, by rw [← List.take_append_drop (cs.length - rest.length) cs, htext]; rfl⟩
    obtain rfl := Option.some.inj hc
    exact absurd hname (by decide)

/-- A name, a type or a scope is a word exactly if a name character stands where it starts. -/
theorem isWord_iff {p : ParseTree} (hp : grammar.Leaves p)
    (hr : p.rule = .identifier ∨ p.rule = .fieldType ∨ p.rule = .scope) :
    ParseTree.IsWord p ↔ ¬ Stops isNameChar p.start := by
  obtain ⟨rule, start, text, children⟩ := p
  obtain ⟨m, rest, -, h, htext⟩ := hp
  dsimp only at h htext hr ⊢
  rcases hr with rfl | rfl | rfl
  · exact iff_of_true (.inl rfl) (not_stops_of_opens opens_name h)
  · exact iff_of_true (.inr (.inl rfl)) (not_stops_of_opens opens_fieldType h)
  · rw [stops_scope_iff h, ← htext]
    simp [ParseTree.IsWord]

end

/-- Past the gap nothing is skipped, unless the text goes on with no name character. -/
theorem next_or_stops {m : Mode} {after next : List Char} {gs : List ParseTree}
    (h : grammar.Parses .atomic (grammar.between m) after (some (next, gs))) :
    next = after ∨ Stops isNameChar after := by
  cases m with
  | spaced =>
    obtain rfl : skip after = next := by
      have he := (spans_gap after).unique h
      simp only [Option.map_some, Option.some.injEq, Prod.mk.injEq] at he
      exact he.1
    cases after with
    | nil => exact .inl skip_nil
    | cons c after =>
      cases hc : isNameChar c with
      | true => exact .inl (skip_cons after (not_mem_gapOpeners_of_isNameChar hc))
      | false => exact .inr (by simpa [Stops] using hc)
  | atomic | compound =>
    cases h with
    | empty => exact .inl rfl

theorem scope_of_keyword {r : Rule} {word : String} (h : r.keyword? = some word) :
    grammar.scope r = .inherit := by
  cases r <;> cases h <;> rfl

theorem body_of_keyword {r : Rule} {word : String} (h : r.keyword? = some word) :
    ∃ e, grammar.body r = .seq (.literal word) e ∧
      (r.isSetApart = true ∧ grammar.Opens (fun c => !isNameChar c) e ∨
        r.isSetApart = false ∧ ∃ part, StartsWith part e ∧
          (part = .identifier ∨ part = .fieldType ∨ part = .scope)) := by
  cases r <;> cases h
  case «include» | cppInclude => exact ⟨_, rfl, .inl ⟨rfl, .rule opens_quoted⟩⟩
  case throws => exact ⟨_, rfl, .inl ⟨rfl, .seq (.literal rfl rfl)⟩⟩
  case ns => exact ⟨_, rfl, .inr ⟨rfl, .scope, .inr ⟨_, rfl⟩, by simp⟩⟩
  case constDef | typedefDef => exact ⟨_, rfl, .inr ⟨rfl, .fieldType, .inr ⟨_, rfl⟩, by simp⟩⟩
  case «extends» => exact ⟨_, rfl, .inr ⟨rfl, .identifier, .inl rfl, by simp⟩⟩
  all_goals exact ⟨_, rfl, .inr ⟨rfl, .identifier, .inr ⟨_, rfl⟩, by simp⟩⟩

/-- Where a part runs on, a name character stands. -/
theorem not_stops_of_runsOn {t : ParseTree} {after : List Char}
    (ht : ∀ p ∈ t.children, grammar.Leaves p) (h : ParseTree.RunsOn t after) :
    ¬ Stops isNameChar after := by
  obtain ⟨p, hp, rfl, hw⟩ := h
  exact (isWord_iff (ht p (List.mem_of_mem_head? hp)) (hw.imp_right (·.imp_right And.left))).mp hw

/-- A keyword is a whole word unless the part after it runs on, and before quoted text and before a
parenthesis it always is one. -/
theorem stops_iff_not_runsOn {t : ParseTree} {word : String} (ht : grammar.Leaves t)
    (hk : t.rule.keyword? = some word) :
    ∃ after, t.start = word.toList ++ after ∧
      (Stops isNameChar after ↔ ¬ ParseTree.RunsOn t after) ∧
      (t.rule.isSetApart = true → Stops isNameChar after) := by
  obtain ⟨m, rest, hm, h, -⟩ := ht
  obtain ⟨e, hbody, he⟩ := body_of_keyword hk
  rw [scope_of_keyword hk] at hm h
  rw [hbody] at h
  obtain ⟨after, next, gs, hstart, hgap, h⟩ := h.of_literal
  have hleaves (p : ParseTree) (hp : p ∈ t.children) := (h.inside _ rfl p (.here hp)).1
  have hruns (h : ParseTree.RunsOn t after) := not_stops_of_runsOn hleaves h
  refine ⟨after, hstart, ?_⟩
  rcases he with ⟨-, ho⟩ | ⟨hapart, part, he, hp⟩
  · have hs : Stops isNameChar after :=
      (next_or_stops hgap).elim (fun hn => hn ▸ stops_of_opens ho h) id
    exact ⟨iff_of_true hs fun h => hruns h hs, fun _ => hs⟩
  · refine ⟨⟨fun hs h => hruns h hs, fun hnot => ?_⟩, fun hr => by rw [hapart] at hr; cases hr⟩
    obtain rfl | hs := next_or_stops hgap
    · -- The part stands right behind the keyword, so it is no word.
      have houter : (grammar.scope part).outer m ≠ .atomic := by
        rcases hp with rfl | rfl | rfl <;> exact hm
      obtain ⟨p, hhead, rfl, rfl⟩ := h.first_node he houter
      have hword := isWord_iff (hleaves p (List.mem_of_mem_head? hhead)) hp
      exact Classical.not_not.mp fun hs => hnot ⟨p, hhead, rfl, hword.mpr hs⟩
    · exact hs

/-- In the match of an accepted text a keyword stands where its node starts, and it is a whole word
unless a word stands right behind it: a name, a type, or the scope of one language. The keywords
before quoted text and before a parenthesis are whole words always. -/
theorem keyword_whole_iff {source : String} {d : Document} (h : parse source = .ok d) :
    ∃ ts, Matches source ts ∧ ParseTree.document source.toList ts = .ok d ∧
      ∀ t : ParseTree, t.Inside ts → ∀ word, t.rule.keyword? = some word →
        ∃ after, t.start = word.toList ++ after ∧ t.start <:+ source.toList ∧
          (Stops isNameChar after ↔ ¬ ParseTree.RunsOn t after) ∧
          (t.rule.isSetApart = true → Stops isNameChar after) := by
  rcases matches_or_fails source with ⟨-, he⟩ | ⟨ts, d', hm, hw, hd⟩
  · rw [he] at h
    cases h
  · obtain rfl := Except.ok.inj (hd.symm.trans h)
    refine ⟨ts, hm, hw, fun t ht word hk => ?_⟩
    obtain ⟨hleaves, hs⟩ := hm.inside _ rfl t ht
    obtain ⟨after, hstart, hwhole⟩ := stops_iff_not_runsOn hleaves hk
    exact ⟨after, hstart, hs, hwhole⟩

/-- A header and a struct with a blank after each keyword. -/
theorem keyword_whole_iff_struct :
    ∃ ts, Matches "namespace * a struct S\x7b\x7d" ts ∧
      ∀ t : ParseTree, t.Inside ts → ∀ word, t.rule.keyword? = some word →
        ∃ after, t.start = word.toList ++ after ∧
          (Stops isNameChar after ↔ ¬ ParseTree.RunsOn t after) := by
  have htest : (parse "namespace * a struct S\x7b\x7d").toOption.any
    (fun d => d.headers.length == 1 && d.definitions.length == 1) = true := by decide +kernel
  obtain ⟨d, h, -⟩ := exists_parsed htest
  obtain ⟨ts, hm, -, hwords⟩ := keyword_whole_iff h
  refine ⟨ts, hm, fun t ht word hk => ?_⟩
  obtain ⟨after, hstart, -, hiff, -⟩ := hwords t ht word hk
  exact ⟨after, hstart, hiff⟩

theorem documentPart_of_keyword?_none (source : List Char) (found : Document) {t : ParseTree}
    (h : t.rule.keyword? = none) : ParseTree.documentPart source found t = .ok found := by
  unfold ParseTree.documentPart
  split
  case h_11 => rfl
  all_goals
    next hr =>
    rw [hr] at h
    cases h

theorem foldlM_documentPart (source : List Char) (found : Document) {parts : List ParseTree}
    (h : ∀ t ∈ parts, t.rule.keyword? = none) :
    parts.foldlM (ParseTree.documentPart source) found = .ok found := by
  induction parts with
  | nil => rfl
  | cons t parts ih =>
    rw [List.forall_mem_cons] at h
    rw [List.foldlM_cons, documentPart_of_keyword?_none source found h.1]
    exact ih h.2

/-- A document that is not empty has a keyword in its match. -/
theorem exists_keyword_of_document {source : List Char} {ts : List ParseTree} {d : Document}
    (h : ParseTree.document source ts = .ok d) (hd : d ≠ ⟨[], []⟩) :
    ∃ t : ParseTree, t.Inside ts ∧ ∃ word, t.rule.keyword? = some word := by
  cases ts with
  | nil => cases h
  | cons root ts =>
    by_cases hnone : ∀ t ∈ root.children, t.rule.keyword? = none
    · have hempty := (foldlM_documentPart source ⟨[], []⟩ hnone).symm.trans h
      exact absurd (Except.ok.inj hempty).symm hd
    · obtain ⟨t, hnone⟩ := Classical.not_forall.mp hnone
      obtain ⟨ht, hsome⟩ := Classical.not_imp.mp hnone
      exact ⟨t, .deeper List.mem_cons_self (.here ht), Option.ne_none_iff_exists'.mp hsome⟩

/-- The only keyword in a text is the `struct` it begins with. -/
theorem keyword_of_structA {r : Rule} {word : String} {after : List Char}
    (hk : r.keyword? = some word) (hs : word.toList ++ after <:+ "structA\x7b\x7d".toList) :
    word = "struct" ∧ after = "A\x7b\x7d".toList := by
  have htest : ∀ k < 10, ∀ r ∈ Rule.all, ∀ word ∈ r.keyword?,
      word.toList <+: "structA\x7b\x7d".toList.drop k → word = "struct" ∧ k = 0 := by
    decide +kernel
  have hr : r ∈ Rule.all := by cases r <;> decide
  rw [List.suffix_iff_eq_drop] at hs
  obtain ⟨rfl, hk⟩ := htest _ (by simp; omega) r hr word hk (hs ▸ List.prefix_append _ _)
  rw [hk] at hs
  exact ⟨rfl, List.append_cancel_left (hs.trans (by rfl))⟩

/-- A text is accepted in which a keyword goes on with the name that follows it. -/
theorem not_whole_struct :
    ∃ d ts, parse "structA\x7b\x7d" = .ok d ∧ Matches "structA\x7b\x7d" ts ∧
      ∃ t : ParseTree, t.Inside ts ∧ t.rule.keyword? = some "struct" ∧
        ∃ c after, t.start = "struct".toList ++ c :: after ∧ isNameChar c = true := by
  have htest : (parse "structA\x7b\x7d").toOption.any (fun d => !d.definitions.isEmpty) = true := by
    decide +kernel
  obtain ⟨d, h, hne⟩ := exists_parsed htest
  rcases matches_or_fails "structA\x7b\x7d" with ⟨-, he⟩ | ⟨ts, d', hm, hw, hd⟩
  · rw [he] at h
    cases h
  · obtain rfl := Except.ok.inj (hd.symm.trans h)
    obtain ⟨t, ht, word, hk⟩ := exists_keyword_of_document hw (by rintro rfl; cases hne)
    obtain ⟨hleaves, hs⟩ := hm.inside _ rfl t ht
    obtain ⟨after, hstart, -⟩ := stops_iff_not_runsOn hleaves hk
    obtain ⟨rfl, rfl⟩ := keyword_of_structA hk (hstart ▸ hs)
    exact ⟨d', ts, hd, hm, t, ht, hk, 'A', _, hstart, by decide⟩

end SchemaGen.Idl
