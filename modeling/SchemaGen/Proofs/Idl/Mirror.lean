import SchemaGen.Idl.Parser
import SchemaGen.Proofs.Idl.GapMatch
import SchemaGen.Proofs.Idl.Soundness
import SchemaGen.Proofs.Peg.Derivation

namespace SchemaGen.Idl

open Peg Reader

variable {α β : Type}

/-- At a text the reader and the expression both fail, or the reader goes on past the gap after
what the expression matched, and reads a value that the nodes stand for. -/
inductive Agrees (e : Expr Rule) (p : Reader α) (V : List ParseTree → α → Prop) (cs : List Char) :
    Prop where
  | fails (he : grammar.Parses .spaced e cs none) (hp : p cs = none)
  | finds {a : α} {after : List Char} {ns : List ParseTree}
      (he : grammar.Parses .spaced e cs (some (after, ns))) (hp : p cs = some (a, skip after))
      (hv : V ns a)

/-- The reader agrees with the expression on each text below a length, where a part may start. -/
def Mirrors (n : Nat) (e : Expr Rule) (p : Reader α) (V : List ParseTree → α → Prop) : Prop :=
  ∀ cs : List Char, cs.length < n → Settled cs → Agrees e p V cs

/-- A reader that takes some of the text whenever it succeeds. -/
def Consumes (p : Reader α) : Prop :=
  ∀ ⦃cs a rest⦄, p cs = some (a, rest) → rest.length < cs.length

/-- What an optional part stands for. -/
inductive Given (V : List ParseTree → α → Prop) : List ParseTree → Option α → Prop where
  | absent : Given V [] none
  | present {ns : List ParseTree} {a : α} (h : V ns a) : Given V ns (some a)

/-- What a repeated part stands for. -/
inductive Each (V : List ParseTree → α → Prop) : List ParseTree → List α → Prop where
  | nil : Each V [] []
  | cons {ns ks : List ParseTree} {a : α} {as : List α} (h : V ns a) (hs : Each V ks as) :
      Each V (ns ++ ks) (a :: as)

/-- One node of a rule, from which a walk makes the value. -/
def One (r : Rule) (walk : ParseTree → Except Diagnostic α) (ns : List ParseTree) (a : α) : Prop :=
  ∃ t : ParseTree, ns = [t] ∧ t.rule = r ∧ walk t = .ok a

theorem Spelling.consumes {p : Reader α} {P : α → List Token → Prop} (hp : Spelling p P)
    (hne : ∀ ⦃a ts⦄, P a ts → ts ≠ []) : Consumes p := by
  intro cs a rest h
  obtain ⟨ts, ht, hr⟩ := hp h
  have hl := hr.length
  have hpos := List.length_pos_iff.mpr (hne ht)
  omega

namespace Mirrors

variable {n k : Nat} {a b : Expr Rule} {p q : Reader α} {V : List ParseTree → α → Prop}
  {W : List ParseTree → β → Prop}

/-- Texts that are left are no longer. -/
theorem rest_length {m : Mode} {cs after : List Char} {ns : List ParseTree}
    (h : grammar.Parses m a cs (some (after, ns))) : (skip after).length ≤ cs.length :=
  Nat.le_trans (skip_length_le after) (h.suffix _ rfl).length_le

theorem weaken {V' : List ParseTree → α → Prop} (h : Mirrors n a p V)
    (hv : ∀ ns x, V ns x → V' ns x) : Mirrors n a p V' := by
  intro cs hn hs
  cases h cs hn hs with
  | fails he hp => exact .fails he hp
  | finds he hp hx => exact .finds he hp (hv _ _ hx)

/-- Readers that each mirror the expression below their bound do so with the length of the text as
their bound. -/
theorem bounded {p : Nat → Reader α} (h : ∀ depth, Mirrors depth a (p depth) V) :
    Mirrors n a (fun cs => p (cs.length + 1) cs) V := by
  intro cs _ hs
  cases h (cs.length + 1) cs (Nat.lt_succ_self _) hs with
  | fails he hp => exact .fails he hp
  | finds he hp hv => exact .finds he hp hv

theorem mono (h : Mirrors n a p V) (hk : k ≤ n) : Mirrors k a p V :=
  fun cs hc hs => h cs (Nat.lt_of_lt_of_le hc hk) hs

/-- The second part has to agree only on the texts that the first part leaves. -/
theorem seq {f : α → Reader β} (ha : Mirrors n a p V)
    (hk : ∀ cs x mid, p cs = some (x, mid) → mid.length ≤ cs.length → cs.length < n →
      mid.length < k)
    (hb : ∀ ns x, V ns x → Mirrors k b (f x) fun ks y => W (ns ++ ks) y) :
    Mirrors n (.seq a b) (p >>= f) W := by
  intro cs hn hs
  cases ha cs hn hs with
  | fails he hp => exact .fails (.seq_first he) (bind_of_none hp)
  | @finds x mid ns he hp hv =>
    have hmid := hk cs x (skip mid) hp (rest_length he) hn
    cases hb ns x hv (skip mid) hmid (settled_skip mid) with
    | fails hf hq => exact .fails (.seq_second he (spans_gap mid) hf) ((bind_of_some hp).trans hq)
    | finds hf hq hw => exact .finds (.seq he (spans_gap mid) hf) ((bind_of_some hp).trans hq) hw

theorem bind {f : α → Reader β} (ha : Mirrors n a p V)
    (hb : ∀ ns x, V ns x → Mirrors n b (f x) fun ks y => W (ns ++ ks) y) :
    Mirrors n (.seq a b) (p >>= f) W :=
  ha.seq (fun _ _ _ _ hl hn => Nat.lt_of_le_of_lt hl hn) hb

/-- After a part that takes some of the text, the second part has a shorter text. -/
theorem bind_consumed {f : α → Reader β} (ha : Mirrors (n + 1) a p V) (hc : Consumes p)
    (hb : ∀ ns x, V ns x → Mirrors n b (f x) fun ks y => W (ns ++ ks) y) :
    Mirrors (n + 1) (.seq a b) (p >>= f) W :=
  ha.seq (fun _ _ _ hp _ hn => Nat.lt_of_lt_of_le (hc hp) (Nat.le_of_lt_succ hn)) hb

theorem map {f : α → β} (ha : Mirrors n a p V) (hw : ∀ ns x, V ns x → W ns (f x)) :
    Mirrors n a (f <$> p) W := by
  intro cs hn hs
  cases ha cs hn hs with
  | fails he hp => exact .fails he (by rw [map_apply, hp]; rfl)
  | finds he hp hv => exact .finds he (by rw [map_apply, hp]; rfl) (hw _ _ hv)

/-- The last part, after which the value is put together. -/
theorem last {f : α → β} (ha : Mirrors n a p V) (hw : ∀ ns x, V ns x → W ns (f x)) :
    Mirrors n a (p >>= fun x => pure (f x)) W := by
  rw [bind_pure_comp]
  exact ha.map hw

theorem either (ha : Mirrors n a p V) (hb : Mirrors n b q V) :
    Mirrors n (.choice a b) (either p q) V := by
  intro cs hn hs
  cases ha cs hn hs with
  | finds he hp hv => exact .finds (.first he) (either_of_some hp) hv
  | fails he hp =>
    cases hb cs hn hs with
    | fails hf hq => exact .fails (.second he hf) ((either_of_none hp).trans hq)
    | finds hf hq hv => exact .finds (.second he hf) ((either_of_none hp).trans hq) hv

theorem maybe (ha : Mirrors n a p V) : Mirrors n (.optional a) (maybe p) (Given V) := by
  intro cs hn hs
  cases ha cs hn hs with
  | fails he hp =>
    refine .finds (.optional_none he) ?_ .absent
    rw [maybe_of_none hp, skip_of_settled hs]
  | finds he hp hv => exact .finds (.optional he) (maybe_of_some hp) (.present hv)

theorem manyUpTo (ha : Mirrors n a p V) (hc : Consumes p) (bound : Nat) {cs : List Char}
    (hb : cs.length ≤ bound) (hn : cs.length < n) (hs : Settled cs) :
    Agrees (.many a) (manyUpTo p bound) (Each V) cs := by
  induction bound generalizing cs with
  | zero =>
    have hnil := List.eq_nil_of_length_eq_zero (Nat.le_zero.mp hb)
    cases ha cs hn hs with
    | fails he hp => exact .finds (.many_nil he) (by rw [skip_of_settled hs]; rfl) .nil
    | finds he hp hv =>
      have hlt := hc hp
      rw [hnil] at hlt
      exact absurd hlt (Nat.not_lt_zero _)
  | succ bound ih =>
    cases ha cs hn hs with
    | fails he hp =>
      exact .finds (.many_nil he) (by rw [manyUpTo_of_none hp, skip_of_settled hs]) .nil
    | @finds x mid ns he hp hv =>
      have hlt := hc hp
      have hsettled := settled_skip mid
      have hrest := ih (by omega) (by omega) hsettled
      cases ha (skip mid) (by omega) hsettled with
      | fails hf hq =>
        have hcons := Each.cons hv .nil
        rw [List.append_nil] at hcons
        exact .finds (.many_last he (spans_gap mid) hf)
          (manyUpTo_of_some hp (manyUpTo_of_none hq bound)) hcons
      | finds hf hq hw =>
        cases hrest with
        | fails _ hr => exact absurd hr (manyUpTo_ne_none p bound _)
        | finds hr hm he' =>
          exact .finds (.many_more he (spans_gap mid) hf hr) (manyUpTo_of_some hp hm)
            (.cons hv he')

theorem many (ha : Mirrors n a p V) (hc : Consumes p) :
    Mirrors n (.many a) (many p) (Each V) :=
  fun cs hn hs => by
    cases ha.manyUpTo hc cs.length (Nat.le_refl _) hn hs with
    | fails he hp => exact .fails he hp
    | finds he hp hv => exact .finds he hp hv

/-- A rule outside atomic mode leaves one node. -/
theorem nodes_eq {m : Mode} (hm : m ≠ .atomic) (r : Rule) (cs rest : List Char)
    (ns : List ParseTree) :
    grammar.nodes m r cs rest ns = [⟨r, cs, cs.take (cs.length - rest.length), ns⟩] := by
  rw [Grammar.nodes, if_neg]
  cases hs : grammar.scope r with
  | compound => simp [Scope.outer]
  | inherit | atomic => simpa [Scope.outer] using hm

/-- A rule that keeps the mode leaves a node with the nodes of its body. -/
theorem node {r : Rule} (hr : Grammar.scope r = .inherit)
    (h : Mirrors n (Grammar.body r) p fun ns x => ∀ start text, V [⟨r, start, text, ns⟩] x) :
    Mirrors n (.rule r) p V := by
  have hinner : (grammar.scope r).inner .spaced = .spaced := by
    change (Grammar.scope r).inner .spaced = .spaced
    rw [hr]
    rfl
  intro cs hn hs
  cases h cs hn hs with
  | fails he hp => exact .fails (.rule_none (by rw [hinner]; exact he)) hp
  | @finds x after ns he hp hv =>
    refine .finds (.rule (by rw [hinner]; exact he)) hp ?_
    rw [nodes_eq (by simp)]
    exact hv _ _

/-- The value of a rule is what a walk makes of its node. -/
theorem rule {r : Rule} {walk : ParseTree → Except Diagnostic α} (hr : Grammar.scope r = .inherit)
    (h : Mirrors n (Grammar.body r) p fun ns x => ∀ start text,
      walk ⟨r, start, text, ns⟩ = .ok x) : Mirrors n (.rule r) p (One r walk) :=
  node hr (h.weaken fun _ _ hw start text => ⟨_, rfl, rfl, hw start text⟩)

theorem take_span {cs text rest : List Char} (h : cs = text ++ rest) :
    cs.take (cs.length - rest.length) = text := by
  subst h
  simp

/-- A lexeme leaves a node with its text and no nodes inside. -/
theorem lexeme {r : Rule} {span : List Char → Option (List Char × List Char)} {w : String → α}
    (hr : Grammar.scope r = .atomic)
    (hspan : Spans (Grammar.body r) fun cs => (span cs).map Prod.snd)
    (happend : ∀ cs text rest, span cs = some (text, rest) → cs = text ++ rest)
    (hp : ∀ cs, p cs = (span cs).map fun (text, rest) => (w (String.ofList text), skip rest)) :
    Mirrors n (.rule r) p (One r fun t => .ok (w (ParseTree.name t))) := by
  have hinner : (grammar.scope r).inner .spaced = .atomic := by
    change (Grammar.scope r).inner .spaced = .atomic
    rw [hr]
    rfl
  intro cs hn hs
  have hbody := hspan cs
  have hread := hp cs
  dsimp only at hbody
  cases hc : span cs with
  | none =>
    rw [hc] at hbody hread
    exact .fails (.rule_none (by rw [hinner]; exact hbody)) hread
  | some tr =>
    obtain ⟨text, rest⟩ := tr
    rw [hc] at hbody hread
    refine .finds (.rule (by rw [hinner]; exact hbody)) hread ?_
    rw [nodes_eq (by simp), take_span (happend cs text rest hc)]
    exact ⟨_, rfl, rfl, rfl⟩

end Mirrors

end SchemaGen.Idl
