namespace SchemaGen.Peg

/-- A parsing expression over rules named by `ρ`. Choice is ordered and repetition is greedy. -/
inductive Expr (ρ : Type) where
  | empty
  | literal (text : String)
  | char (test : Char → Bool)
  | endOfText
  | rule (name : ρ)
  | seq (first second : Expr ρ)
  | choice (first second : Expr ρ)
  | many (item : Expr ρ)
  | optional (item : Expr ρ)
  | absent (item : Expr ρ)

namespace Expr

variable {ρ : Type}

def any : Expr ρ := char fun _ => true

/-- At least one item. -/
def some (item : Expr ρ) : Expr ρ := seq item (many item)

def seqs : List (Expr ρ) → Expr ρ
  | [] => empty
  | [e] => e
  | e :: rest => seq e (seqs rest)

/-- The first of several alternatives that matches. The empty choice is not used. -/
def choices : List (Expr ρ) → Expr ρ
  | [] => empty
  | [e] => e
  | e :: rest => choice e (choices rest)

end Expr

/-- Whether the gap may stand between the parts of an expression. -/
inductive Mode where
  | spaced
  | atomic
  | compound
  deriving DecidableEq, Repr

/-- How a rule treats the mode: it keeps it, or sets it for its body alone, or for itself too. -/
inductive Scope where
  | inherit
  | atomic
  | compound
  deriving DecidableEq, Repr

/-- A grammar: the body and the scope of each rule, and the gap between parts in spaced mode. -/
structure Grammar (ρ : Type) where
  body : ρ → Expr ρ
  scope : ρ → Scope
  gap : Expr ρ

namespace Scope

/-- The mode in which the rule itself stands. -/
def outer (s : Scope) (m : Mode) : Mode :=
  match s with
  | compound => .compound
  | _ => m

/-- The mode of the body. -/
def inner (s : Scope) (m : Mode) : Mode :=
  match s with
  | inherit => m
  | atomic => .atomic
  | compound => .compound

end Scope
end SchemaGen.Peg
