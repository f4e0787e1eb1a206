import SchemaGen.Peg.Expr

namespace SchemaGen.Peg

variable {ρ : Type}

/-- A rule that matched: the text from its start on, what it matched of it, and the nodes inside. -/
structure Node (ρ : Type) where
  rule : ρ
  start : List Char
  text : List Char
  children : List (Node ρ)

/-- How matching ends, if not with a failure. -/
abbrev Found (ρ : Type) := Option (List Char × List (Node ρ))

namespace Grammar

variable (g : Grammar ρ)

/-- What stands between two parts. -/
def between : Mode → Expr ρ
  | .spaced => .many g.gap
  | _ => .empty

/-- The nodes for a rule that matched. A rule leaves none of its own in atomic mode. -/
def nodes (m : Mode) (r : ρ) (cs rest : List Char) (children : List (Node ρ)) : List (Node ρ) :=
  if (g.scope r).outer m = .atomic then children
  else [⟨r, cs, cs.take (cs.length - rest.length), children⟩]

/-- What matching an expression at a text comes to. Repetition takes items as long as one matches,
and no later failure takes one back. -/
inductive Parses : Mode → Expr ρ → List Char → Found ρ → Prop where
  | empty {m : Mode} {cs : List Char} : Parses m .empty cs (some (cs, []))
  | literal {m : Mode} {text : String} {rest : List Char} :
      Parses m (.literal text) (text.toList ++ rest) (some (rest, []))
  | literal_none {m : Mode} {text : String} {cs : List Char} (h : ¬ text.toList <+: cs) :
      Parses m (.literal text) cs none
  | char {m : Mode} {test : Char → Bool} {c : Char} {rest : List Char} (h : test c = true) :
      Parses m (.char test) (c :: rest) (some (rest, []))
  | char_none {m : Mode} {test : Char → Bool} {cs : List Char}
      (h : ∀ c ∈ cs.head?, test c = false) : Parses m (.char test) cs none
  | endOfText {m : Mode} : Parses m .endOfText [] (some ([], []))
  | endOfText_none {m : Mode} {cs : List Char} (h : cs ≠ []) : Parses m .endOfText cs none
  | rule {m : Mode} {r : ρ} {cs rest : List Char} {ns : List (Node ρ)}
      (h : Parses ((g.scope r).inner m) (g.body r) cs (some (rest, ns))) :
      Parses m (.rule r) cs (some (rest, g.nodes m r cs rest ns))
  | rule_none {m : Mode} {r : ρ} {cs : List Char}
      (h : Parses ((g.scope r).inner m) (g.body r) cs none) : Parses m (.rule r) cs none
  | seq {m : Mode} {a b : Expr ρ} {cs mid next rest : List Char} {ns gs ks : List (Node ρ)}
      (ha : Parses m a cs (some (mid, ns)))
      (hg : Parses .atomic (g.between m) mid (some (next, gs)))
      (hb : Parses m b next (some (rest, ks))) :
      Parses m (.seq a b) cs (some (rest, ns ++ ks))
  | seq_first {m : Mode} {a b : Expr ρ} {cs : List Char} (ha : Parses m a cs none) :
      Parses m (.seq a b) cs none
  | seq_second {m : Mode} {a b : Expr ρ} {cs mid next : List Char} {ns gs : List (Node ρ)}
      (ha : Parses m a cs (some (mid, ns)))
      (hg : Parses .atomic (g.between m) mid (some (next, gs))) (hb : Parses m b next none) :
      Parses m (.seq a b) cs none
  | first {m : Mode} {a b : Expr ρ} {cs rest : List Char} {ns : List (Node ρ)}
      (ha : Parses m a cs (some (rest, ns))) : Parses m (.choice a b) cs (some (rest, ns))
  | second {m : Mode} {a b : Expr ρ} {cs : List Char} {found : Found ρ} (ha : Parses m a cs none)
      (hb : Parses m b cs found) : Parses m (.choice a b) cs found
  | many_nil {m : Mode} {e : Expr ρ} {cs : List Char} (he : Parses m e cs none) :
      Parses m (.many e) cs (some (cs, []))
  | many_last {m : Mode} {e : Expr ρ} {cs mid next : List Char} {ns gs : List (Node ρ)}
      (he : Parses m e cs (some (mid, ns)))
      (hg : Parses .atomic (g.between m) mid (some (next, gs))) (hn : Parses m e next none) :
      Parses m (.many e) cs (some (mid, ns))
  | many_more {m : Mode} {e : Expr ρ} {cs mid next rest : List Char} {ns gs ks : List (Node ρ)}
      {item : List Char × List (Node ρ)} (he : Parses m e cs (some (mid, ns)))
      (hg : Parses .atomic (g.between m) mid (some (next, gs)))
      (hn : Parses m e next (some item)) (hr : Parses m (.many e) next (some (rest, ks))) :
      Parses m (.many e) cs (some (rest, ns ++ ks))
  | optional {m : Mode} {e : Expr ρ} {cs rest : List Char} {ns : List (Node ρ)}
      (he : Parses m e cs (some (rest, ns))) : Parses m (.optional e) cs (some (rest, ns))
  | optional_none {m : Mode} {e : Expr ρ} {cs : List Char} (he : Parses m e cs none) :
      Parses m (.optional e) cs (some (cs, []))
  | absent {m : Mode} {e : Expr ρ} {cs : List Char} (he : Parses m e cs none) :
      Parses m (.absent e) cs (some (cs, []))
  | absent_none {m : Mode} {e : Expr ρ} {cs : List Char} {found : List Char × List (Node ρ)}
      (he : Parses m e cs (some found)) : Parses m (.absent e) cs none

end Grammar
end SchemaGen.Peg
