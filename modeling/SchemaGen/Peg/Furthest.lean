import SchemaGen.Peg.Expr

/-!
Matching that remembers where it got stuck: the furthest position at which a rule was tried and
failed, and the rules that failed there. A rule whose body left exactly one failure at its own
start steps back behind that one; otherwise it replaces what its body left there. Nothing is
remembered inside atomic rules.
-/

namespace SchemaGen.Peg

variable {ρ : Type}

structure Cursor where
  position : Nat
  rest : List Char

/-- The furthest failures so far. -/
structure Trail (ρ : Type) where
  position : Nat := 0
  rules : List ρ := []

/-- How many failures are remembered at a position. -/
def Trail.countAt (t : Trail ρ) (position : Nat) : Nat :=
  if t.position = position then t.rules.length else 0

/-- Remembers that a rule failed at `position`, where `before` failures were known on entry. -/
def Trail.note (t : Trail ρ) (rule : ρ) (position before : Nat) : Trail ρ :=
  if t.countAt position = before + 1 then t
  else if position = t.position then { t with rules := t.rules.take before ++ [rule] }
  else if t.position < position then ⟨position, [rule]⟩
  else t

/-- The rest after a literal text. -/
def Cursor.drop? (c : Cursor) (text : List Char) : Option Cursor :=
  if text.isPrefixOf c.rest then some ⟨c.position + text.length, c.rest.drop text.length⟩ else none

namespace Grammar

variable (g : Grammar ρ)

/-- Matches an expression at a cursor. The bound counts nested rules and repetitions. -/
def track : Nat → Mode → Expr ρ → Cursor → Trail ρ → Option Cursor × Trail ρ
  | _, _, .empty, c, t => (some c, t)
  | _, _, .literal text, c, t => (c.drop? text.toList, t)
  | _, _, .char test, c, t =>
    match c.rest with
    | x :: rest => (if test x then some ⟨c.position + 1, rest⟩ else none, t)
    | [] => (none, t)
  | _, _, .endOfText, c, t => (if c.rest.isEmpty then some c else none, t)
  | 0, _, _, _, t => (none, t)
  | bound + 1, m, .rule r, c, t =>
    let scope := g.scope r
    match track bound (scope.inner m) (g.body r) c t with
    | (some c', t') => (some c', t')
    | (none, t') =>
      if scope.outer m = .atomic then (none, t')
      else (none, t'.note r c.position (t.countAt c.position))
  | bound + 1, m, .seq a b, c, t =>
    match track bound m a c t with
    | (none, t) => (none, t)
    | (some c, t) =>
      let (c, t) := space bound m c t
      track bound m b c t
  | bound + 1, m, .choice a b, c, t =>
    match track bound m a c t with
    | (none, t) => track bound m b c t
    | found => found
  | bound + 1, m, .many e, c, t =>
    match track bound m e c t with
    | (none, t) => (some c, t)
    | (some c, t) => again bound m e c t
  | bound + 1, m, .optional e, c, t =>
    match track bound m e c t with
    | (none, t) => (some c, t)
    | found => found
  | bound + 1, m, .absent e, c, t =>
    match track bound m e c t with
    | (none, t) => (some c, t)
    | (some _, t) => (none, t)
where
  /-- Past the gap, in spaced mode. -/
  space : Nat → Mode → Cursor → Trail ρ → Cursor × Trail ρ
    | bound + 1, .spaced, c, t =>
      match track bound .atomic (.many g.gap) c t with
      | (some c, t) => (c, t)
      | (none, t) => (c, t)
    | _, _, c, t => (c, t)
  /-- Further items of a repetition; a failed one gives back the gap before it. -/
  again : Nat → Mode → Expr ρ → Cursor → Trail ρ → Option Cursor × Trail ρ
    | 0, _, _, c, t => (some c, t)
    | bound + 1, m, e, c, t =>
      let (next, t) := space bound m c t
      match track bound m e next t with
      | (none, t) => (some c, t)
      | (some c, t) => again bound m e c t

end Grammar
end SchemaGen.Peg
