import SchemaGen.Peg.Derivation

namespace SchemaGen.Peg.Grammar

variable {ρ : Type} {g : Grammar ρ} {m : Mode} {e : Expr ρ} {cs : List Char} {found : Found ρ}

/-- An expression matches a text in one way or fails on it. -/
theorem Parses.unique {other : Found ρ} (h : g.Parses m e cs found) (k : g.Parses m e cs other) :
    found = other := by
  induction h generalizing other with
  | empty => cases k; rfl
  | @literal m text rest =>
    generalize hcs : text.toList ++ rest = cs at k
    cases k with
    | literal => rw [List.append_cancel_left_eq] at hcs; rw [hcs]
    | literal_none h => exact absurd ⟨rest, hcs⟩ h
  | literal_none h =>
    cases k with
    | literal => exact absurd (List.prefix_append _ _) h
    | literal_none _ => rfl
  | char h =>
    cases k with
    | char _ => rfl
    | char_none hn => simp [h] at hn
  | char_none h =>
    cases k with
    | char hc => simp [hc] at h
    | char_none _ => rfl
  | endOfText =>
    cases k with
    | endOfText => rfl
    | endOfText_none hn => exact absurd rfl hn
  | endOfText_none h =>
    cases k with
    | endOfText => exact absurd rfl h
    | endOfText_none _ => rfl
  | rule _ ih =>
    cases k with
    | rule hk => cases ih hk; rfl
    | rule_none hk => cases ih hk
  | rule_none _ ih =>
    cases k with
    | rule hk => cases ih hk
    | rule_none _ => rfl
  | seq _ _ _ iha ihg ihb =>
    cases k with
    | seq ka kg kb => cases iha ka; cases ihg kg; cases ihb kb; rfl
    | seq_first ka => cases iha ka
    | seq_second ka kg kb => cases iha ka; cases ihg kg; cases ihb kb
  | seq_first _ iha =>
    cases k with
    | seq ka _ _ => cases iha ka
    | seq_first _ | seq_second _ _ _ => rfl
  | seq_second _ _ _ iha ihg ihb =>
    cases k with
    | seq ka kg kb => cases iha ka; cases ihg kg; cases ihb kb
    | seq_first _ | seq_second _ _ _ => rfl
  | first _ iha =>
    cases k with
    | first ka => exact iha ka
    | second ka _ => cases iha ka
  | second _ _ iha ihb =>
    cases k with
    | first ka => cases iha ka
    | second _ kb => exact ihb kb
  | many_nil _ ihe =>
    cases k with
    | many_nil _ => rfl
    | many_last ke _ _ | many_more ke _ _ _ => cases ihe ke
  | many_last _ _ _ ihe ihg ihn =>
    cases k with
    | many_nil ke => cases ihe ke
    | many_last ke _ _ => exact ihe ke
    | many_more ke kg kn _ => cases ihe ke; cases ihg kg; cases ihn kn
  | many_more _ _ _ _ ihe ihg ihn ihr =>
    cases k with
    | many_nil ke => cases ihe ke
    | many_last ke kg kn => cases ihe ke; cases ihg kg; cases ihn kn
    | many_more ke kg _ kr => cases ihe ke; cases ihg kg; cases ihr kr; rfl
  | optional _ ihe =>
    cases k with
    | optional ke => exact ihe ke
    | optional_none ke => cases ihe ke
  | optional_none _ ihe =>
    cases k with
    | optional ke => cases ihe ke
    | optional_none _ => rfl
  | absent _ ihe =>
    cases k with
    | absent _ => rfl
    | absent_none ke => cases ihe ke
  | absent_none _ ihe =>
    cases k with
    | absent ke => cases ihe ke
    | absent_none _ => rfl

theorem Parses.of_seq {a b : Expr ρ} {rest : List Char} {ns : List (Node ρ)}
    (h : g.Parses m (.seq a b) cs (some (rest, ns))) :
    ∃ next ks, g.Parses m b next (some (rest, ks)) := by
  cases h with
  | seq _ _ hb => exact ⟨_, _, hb⟩

/-- A rule that matches leaves what its body leaves. -/
theorem Parses.of_rule {r : ρ} {rest : List Char} {ns : List (Node ρ)}
    (h : g.Parses m (.rule r) cs (some (rest, ns))) :
    ∃ ks, ns = g.nodes m r cs rest ks ∧
      g.Parses ((g.scope r).inner m) (g.body r) cs (some (rest, ks)) := by
  generalize hf : some (rest, ns) = found at h
  cases h with
  | rule h =>
    cases hf
    exact ⟨_, rfl, h⟩
  | rule_none _ => cases hf

/-- What is left of a text is an end of it. -/
theorem Parses.suffix (h : g.Parses m e cs found) : ∀ f ∈ found, f.1 <:+ cs := by
  induction h with
  | empty | endOfText => simp
  | literal => simp
  | char => simp
  | literal_none | char_none | endOfText_none | rule_none | seq_first | seq_second
  | absent_none => simp
  | many_nil | optional_none | absent => simp
  | rule _ ih => simpa using ih
  | seq _ _ _ iha ihg ihb =>
    simp only [Option.mem_def, Option.some.injEq, forall_eq'] at iha ihg ihb ⊢
    exact ihb.trans (ihg.trans iha)
  | first _ ih => exact ih
  | second _ _ _ ih => exact ih
  | many_last _ _ _ ihe _ _ => exact ihe
  | many_more _ _ _ _ ihe ihg _ ihr =>
    simp only [Option.mem_def, Option.some.injEq, forall_eq'] at ihe ihg ihr ⊢
    exact ihr.trans (ihg.trans ihe)
  | optional _ ih => exact ih

end SchemaGen.Peg.Grammar
