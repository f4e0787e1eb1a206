import SchemaGen.Proofs.Peg.Derivation

namespace SchemaGen.Peg

variable {ρ : Type} {g : Grammar ρ} {m : Mode} {cs rest : List Char} {ns ks : List (Node ρ)}

/-- A node is one of some nodes or stands inside one of them, at any depth. -/
inductive Node.Inside (n : Node ρ) : List (Node ρ) → Prop where
  | here {ns : List (Node ρ)} (h : n ∈ ns) : Inside n ns
  | deeper {ns : List (Node ρ)} {p : Node ρ} (hp : p ∈ ns) (h : Inside n p.children) : Inside n ns

theorem Node.Inside.of_append {n : Node ρ} (h : n.Inside (ns ++ ks)) :
    n.Inside ns ∨ n.Inside ks := by
  cases h with
  | here h => exact (List.mem_append.mp h).imp .here .here
  | deeper hp h => exact (List.mem_append.mp hp).imp (.deeper · h) (.deeper · h)

theorem Node.Inside.of_singleton {n p : Node ρ} (h : n.Inside [p]) :
    n = p ∨ n.Inside p.children := by
  cases h with
  | here h => exact .inl (List.mem_singleton.mp h)
  | deeper hp h =>
    obtain rfl := List.mem_singleton.mp hp
    exact .inr h

theorem Node.not_inside_nil {n : Node ρ} : ¬ n.Inside [] := by
  rintro (h | ⟨hp, -⟩)
  · cases h
  · cases hp

namespace Grammar

/-- A rule of the grammar leaves a node: the body of the rule matched where the node starts, as much
as its text, and found the nodes inside. -/
def Leaves (g : Grammar ρ) (n : Node ρ) : Prop :=
  ∃ m rest, (g.scope n.rule).outer m ≠ .atomic ∧
    g.Parses ((g.scope n.rule).inner m) (g.body n.rule) n.start (some (rest, n.children)) ∧
    n.text = n.start.take (n.start.length - rest.length)

/-- Every node that a match finds is one that its rule leaves, at an end of the text. -/
theorem Parses.inside {e : Expr ρ} {found : Found ρ} (h : g.Parses m e cs found) :
    ∀ f ∈ found, ∀ n : Node ρ, n.Inside f.2 → g.Leaves n ∧ n.start <:+ cs := by
  induction h with
  | empty | literal | char | endOfText | many_nil | optional_none | absent =>
    rintro f ⟨⟩ n hn
    exact absurd hn Node.not_inside_nil
  | literal_none | char_none | endOfText_none | rule_none | seq_first | seq_second
  | absent_none => simp
  | @rule m r cs rest ns h ih =>
    rintro f ⟨⟩ n hn
    unfold nodes at hn
    split at hn
    · exact ih _ rfl n hn
    · next hm =>
      obtain rfl | hn := hn.of_singleton
      · exact ⟨⟨m, rest, hm, h, rfl⟩, List.suffix_refl _⟩
      · exact ih _ rfl n hn
  | seq ha hg _ iha _ ihb =>
    rintro f ⟨⟩ n hn
    obtain hn | hn := hn.of_append
    · exact iha _ rfl n hn
    · obtain ⟨hleaves, hs⟩ := ihb _ rfl n hn
      exact ⟨hleaves, hs.trans ((hg.suffix _ rfl).trans (ha.suffix _ rfl))⟩
  | many_more he hg _ _ ihe _ _ ihr =>
    rintro f ⟨⟩ n hn
    obtain hn | hn := hn.of_append
    · exact ihe _ rfl n hn
    · obtain ⟨hleaves, hs⟩ := ihr _ rfl n hn
      exact ⟨hleaves, hs.trans ((hg.suffix _ rfl).trans (he.suffix _ rfl))⟩
  | first _ ih | second _ _ _ ih | many_last _ _ _ ih _ _ | optional _ ih => exact ih

/-- An expression that begins with a rule. -/
def StartsWith (r : ρ) (e : Expr ρ) : Prop := e = .rule r ∨ ∃ b, e = .seq (.rule r) b

/-- A rule that leaves a node leaves it in front of all others. -/
theorem Parses.first_node {r : ρ} {e : Expr ρ} (h : g.Parses m e cs (some (rest, ns)))
    (he : StartsWith r e) (hm : (g.scope r).outer m ≠ .atomic) :
    ∃ p ∈ ns.head?, p.rule = r ∧ p.start = cs := by
  obtain rfl | ⟨b, rfl⟩ := he
  · obtain ⟨ks, rfl, -⟩ := h.of_rule
    rw [nodes, if_neg hm]
    exact ⟨_, rfl, rfl, rfl⟩
  · cases h with
    | seq ha _ _ =>
      obtain ⟨ks, rfl, -⟩ := ha.of_rule
      rw [nodes, if_neg hm]
      exact ⟨_, rfl, rfl, rfl⟩

/-- A literal text in front of an expression, with a gap between. -/
theorem Parses.of_literal {word : String} {e : Expr ρ}
    (h : g.Parses m (.seq (.literal word) e) cs (some (rest, ns))) :
    ∃ after next gs, cs = word.toList ++ after ∧
      g.Parses .atomic (g.between m) after (some (next, gs)) ∧
      g.Parses m e next (some (rest, ns)) := by
  cases h with
  | seq ha hg hb =>
    cases ha with
    | literal => exact ⟨_, _, _, rfl, hg, hb⟩

/-- An expression that matches only texts that begin with a character of some kind. -/
inductive Opens (g : Grammar ρ) (kind : Char → Bool) : Expr ρ → Prop where
  | literal {text : String} {c : Char} {tail : List Char} (h : text.toList = c :: tail)
      (hc : kind c = true) : Opens g kind (.literal text)
  | char {test : Char → Bool} (h : ∀ c, test c = true → kind c = true) : Opens g kind (.char test)
  | rule {r : ρ} (h : Opens g kind (g.body r)) : Opens g kind (.rule r)
  | seq {a b : Expr ρ} (h : Opens g kind a) : Opens g kind (.seq a b)
  | choice {a b : Expr ρ} (ha : Opens g kind a) (hb : Opens g kind b) :
      Opens g kind (.choice a b)

theorem Opens.head {kind : Char → Bool} {e : Expr ρ} (ho : g.Opens kind e)
    (h : g.Parses m e cs (some (rest, ns))) : ∃ c ∈ cs.head?, kind c = true := by
  induction ho generalizing m cs rest ns with
  | literal ht hc =>
    cases h with
    | literal =>
      rw [ht]
      exact ⟨_, rfl, hc⟩
  | char hk =>
    cases h with
    | char hc => exact ⟨_, rfl, hk _ hc⟩
  | rule _ ih =>
    obtain ⟨_, -, h⟩ := h.of_rule
    exact ih h
  | seq _ ih =>
    cases h with
    | seq ha _ _ => exact ih ha
  | choice _ _ iha ihb =>
    cases h with
    | first h => exact iha h
    | second _ h => exact ihb h

end Grammar
end SchemaGen.Peg
