import SchemaGen.Idl.Lexeme

namespace SchemaGen.Idl.Reader

variable {α β : Type}

@[simp] theorem pure_apply (a : α) (cs : List Char) : (pure a : Reader α) cs = some (a, cs) := rfl

@[simp] theorem map_apply (f : α → β) (p : Reader α) (cs : List Char) :
    (f <$> p) cs = (p cs).map fun (a, rest) => (f a, rest) := by
  change (p cs).bind _ = _
  cases p cs <;> rfl

theorem bind_of_some {p : Reader α} {f : α → Reader β} {cs mid : List Char} {a : α}
    (h : p cs = some (a, mid)) : (p >>= f) cs = f a mid := by
  change (p cs).bind _ = _
  rw [h]
  rfl

theorem bind_of_none {p : Reader α} {f : α → Reader β} {cs : List Char}
    (h : p cs = none) : (p >>= f) cs = none := by
  change (p cs).bind _ = _
  rw [h]
  rfl

theorem bind_eq_some {p : Reader α} {f : α → Reader β} {cs : List Char} {r : β × List Char} :
    (p >>= f) cs = some r ↔ ∃ a mid, p cs = some (a, mid) ∧ f a mid = some r := by
  cases h : p cs with
  | none => simp [bind_of_none h]
  | some am =>
    obtain ⟨a, mid⟩ := am
    rw [bind_of_some h]
    constructor
    · intro hf
      exact ⟨a, mid, rfl, hf⟩
    · rintro ⟨b, m, hb, hf⟩
      cases hb
      exact hf

theorem bind_pure_eq_none {p : Reader α} {f : α → β} {cs : List Char} :
    (p >>= fun a => pure (f a)) cs = none ↔ p cs = none := by
  cases h : p cs with
  | none => simp [bind_of_none h]
  | some am => simp [bind_of_some h]

theorem either_of_some {p q : Reader α} {cs : List Char} {r : α × List Char}
    (h : p cs = some r) : either p q cs = some r := by simp [either, h]

theorem either_of_none {p q : Reader α} {cs : List Char} (h : p cs = none) :
    either p q cs = q cs := by simp [either, h]

theorem either_eq_some {p q : Reader α} {cs : List Char} {r : α × List Char}
    (h : either p q cs = some r) : p cs = some r ∨ (p cs = none ∧ q cs = some r) := by
  cases hp : p cs with
  | none => exact .inr ⟨rfl, (either_of_none hp).symm.trans h⟩
  | some s => exact .inl (by rw [either_of_some hp] at h; exact h)

theorem either_eq_none {p q : Reader α} {cs : List Char} :
    either p q cs = none ↔ p cs = none ∧ q cs = none := by
  cases hp : p cs with
  | none => simp [either_of_none hp]
  | some r => simp [either_of_some hp]

theorem maybe_of_some {p : Reader α} {cs rest : List Char} {a : α}
    (h : p cs = some (a, rest)) : maybe p cs = some (some a, rest) := by simp [maybe, h]

theorem maybe_of_none {p : Reader α} {cs : List Char} (h : p cs = none) :
    maybe p cs = some (none, cs) := by simp [maybe, h]

theorem maybe_total (p : Reader α) (cs : List Char) : ∃ o rest, maybe p cs = some (o, rest) := by
  cases h : p cs with
  | none => exact ⟨none, cs, maybe_of_none h⟩
  | some am => exact ⟨some am.1, am.2, maybe_of_some h⟩

theorem maybe_eq_some {p : Reader α} {cs rest : List Char} {o : Option α}
    (h : maybe p cs = some (o, rest)) :
    (o = none ∧ rest = cs ∧ p cs = none) ∨ ∃ a, o = some a ∧ p cs = some (a, rest) := by
  cases hp : p cs with
  | none =>
    rw [maybe_of_none hp] at h
    simp only [Option.some.injEq, Prod.mk.injEq] at h
    exact .inl ⟨h.1.symm, h.2.symm, rfl⟩
  | some am =>
    obtain ⟨a, mid⟩ := am
    rw [maybe_of_some hp] at h
    simp only [Option.some.injEq, Prod.mk.injEq] at h
    exact .inr ⟨a, h.1.symm, by rw [h.2]⟩

theorem manyUpTo_of_none {p : Reader α} {cs : List Char} (h : p cs = none) (n : Nat) :
    manyUpTo p n cs = some ([], cs) := by
  cases n <;> simp [manyUpTo, h]

theorem manyUpTo_of_some {p : Reader α} {cs mid rest : List Char} {a : α} {as : List α} {n : Nat}
    (h : p cs = some (a, mid)) (ht : manyUpTo p n mid = some (as, rest)) :
    manyUpTo p (n + 1) cs = some (a :: as, rest) := by
  simp [manyUpTo, h, ht]

/-- A repetition never fails. -/
theorem manyUpTo_ne_none (p : Reader α) (n : Nat) (cs : List Char) : manyUpTo p n cs ≠ none := by
  induction n generalizing cs with
  | zero => simp [manyUpTo]
  | succ n ih =>
    cases h : p cs with
    | none => simp [manyUpTo, h]
    | some am => simp [manyUpTo, h, ih]

end SchemaGen.Idl.Reader
