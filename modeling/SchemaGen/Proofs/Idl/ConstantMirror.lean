import SchemaGen.Proofs.Idl.ConstantCompleteness
import SchemaGen.Proofs.Idl.TypeMirror

namespace SchemaGen.Idl

open Peg Reader

variable {n : Nat} {α : Type} (source : List Char)

/-- A node alone inside the node of a constant, from which the walk makes the constant. -/
def Alone (ns : List ParseTree) (e : ConstExpr) : Prop :=
  ∃ t : ParseTree, ns = [t] ∧ ∀ start text,
    ParseTree.constValue source ⟨.constValue, start, text, [t]⟩ = .ok e

theorem Mirrors.alone {p : Reader α} {f : α → ConstExpr} {r : Rule}
    {walk : ParseTree → Except Diagnostic α} (h : Mirrors n (.rule r) p (One r walk))
    (hw : ∀ start text children x, walk ⟨r, start, text, children⟩ = .ok x → ∀ outer whole,
      ParseTree.constValue source ⟨.constValue, outer, whole, [⟨r, start, text, children⟩]⟩ =
        .ok (f x)) : Mirrors n (.rule r) (f <$> p) (Alone source) := by
  apply h.map
  rintro _ x ⟨⟨r, start, text, children⟩, rfl, rfl, ht⟩
  exact ⟨_, rfl, hw start text children x ht⟩

theorem double_alone :
    Mirrors n (.rule .double) (ConstExpr.double <$> double) (Alone source) := by
  apply double_mirrors.alone
  intro start text children x h outer whole
  cases h
  rfl

theorem int_alone : Mirrors n (.rule .int) (ConstExpr.int <$> int) (Alone source) := by
  apply int_mirrors.alone
  intro start text children x h outer whole
  cases h
  rfl

theorem truth_alone : Mirrors n (.rule .bool) (ConstExpr.bool <$> truth) (Alone source) := by
  apply truth_mirrors.alone
  intro start text children x h outer whole
  cases h
  rfl

theorem quoted_alone : Mirrors n (.rule .quoted) (ConstExpr.string <$> quoted) (Alone source) := by
  apply (quoted_mirrors source).alone
  intro start text children x h outer whole
  rw [ParseTree.constValue, h]
  rfl

theorem identifier_alone :
    Mirrors n (.rule .identifier) (ConstExpr.identifier <$> identifier) (Alone source) := by
  apply identifier_mirrors.alone
  intro start text children x h outer whole
  cases h
  rfl

theorem Each.constItems {ns : List ParseTree} {es : List ConstExpr}
    (h : Each (One .constValue (ParseTree.constValue source)) ns es) :
    ParseTree.constItems source ns = .ok es := by
  induction h with
  | nil => rw [ParseTree.constItems]
  | cons hx _ ih =>
    obtain ⟨t, rfl, -, ht⟩ := hx
    simp [ParseTree.constItems, ht, ih]

theorem Each.constEntries {ns : List ParseTree} {es : List (ConstExpr × ConstExpr)}
    (h : Each (One .constEntry (ParseTree.constEntry source)) ns es) :
    ParseTree.constEntries source ns = .ok es := by
  induction h with
  | nil => rw [ParseTree.constEntries]
  | cons hx _ ih =>
    obtain ⟨t, rfl, -, ht⟩ := hx
    simp [ParseTree.constEntries, ht, ih]

theorem constant_nonempty ⦃e : ConstExpr⦄ ⦃ts : List Token⦄ (h : e.Spells ts) : ts ≠ [] := by
  obtain ⟨t, us, rfl, -⟩ := h.front
  exact List.cons_ne_nil t us

section Nested

variable {depth : Nat} (ih : Mirrors depth (.rule .constValue) (constUpTo depth)
  (One .constValue (ParseTree.constValue source)))
include ih

theorem constList_mirrors :
    Mirrors (depth + 1) (.rule .constList)
      (do
        token "["
        let items ← many do
          let item ← constUpTo depth
          separator
          pure item
        token "]"
        pure (.list items)) (Alone source) := by
  apply Mirrors.node rfl
  apply ih.items ((constUpTo_spelling depth).consumes_ended constant_nonempty) (by decide)
  intro ns es h start text
  refine ⟨_, rfl, fun _ _ => ?_⟩
  rw [ParseTree.constValue, h.constItems]
  rfl

theorem constEntry_mirrors :
    Mirrors depth (.rule .constEntry) (constEntry (constUpTo depth))
      (One .constEntry (ParseTree.constEntry source)) := by
  apply Mirrors.rule rfl
  refine ih.bind ?_
  rintro _ key ⟨k, rfl, -, hk⟩
  refine (token_mirrors ":").bind ?_
  rintro _ _ rfl
  refine ih.last ?_
  rintro _ value ⟨v, rfl, -, hv⟩ start text
  simp [ParseTree.constEntry, hk, hv]

theorem constMap_mirrors :
    Mirrors (depth + 1) (.rule .constMap)
      (do
        token "\x7b"
        let entries ← many do
          let entry ← constEntry (constUpTo depth)
          separator
          pure entry
        token "\x7d"
        pure (.map entries)) (Alone source) := by
  have hspell := constEntry_spelling (constUpTo_spelling depth)
  have hconsumes := hspell.consumes_ended fun e ts h => by
    cases h with
    | mk hk _ => exact fun hnil => constant_nonempty hk (List.append_eq_nil_iff.mp hnil).1
  apply Mirrors.node rfl
  apply (constEntry_mirrors source ih).items hconsumes (by decide)
  intro ns es h start text
  refine ⟨_, rfl, fun _ _ => ?_⟩
  rw [ParseTree.constValue, h.constEntries]
  rfl

end Nested

theorem constUpTo_mirrors (depth : Nat) :
    Mirrors depth (.rule .constValue) (constUpTo depth)
      (One .constValue (ParseTree.constValue source)) := by
  induction depth with
  | zero => exact fun cs hn _ => absurd hn (Nat.not_lt_zero _)
  | succ depth ih =>
    apply Mirrors.rule rfl
    apply Mirrors.weaken (V := Alone source)
    · refine (double_alone source).either <| (int_alone source).either <|
        (truth_alone source).either <| (quoted_alone source).either <| .either ?_ <| .either ?_ ?_
      · exact constList_mirrors source ih
      · exact constMap_mirrors source ih
      · exact identifier_alone source
    · rintro _ e ⟨t, rfl, ht⟩ start text
      exact ht start text

theorem constValue_mirrors :
    Mirrors n (.rule .constValue) constValue (One .constValue (ParseTree.constValue source)) :=
  .bounded (constUpTo_mirrors source)

end SchemaGen.Idl
