import Mathlib.Data.List.Induction
import SchemaGen.Table

namespace SchemaGen.Table

variable {α β : Type}

/-- The items without those that are the same as an earlier one that was kept. -/
def firstsBy (same : α → α → Bool) (items : List α) : List α :=
  items.foldl (fun kept a => if kept.any (same · a) then kept else kept ++ [a]) []

variable {same : α → α → Bool} {items : List α}

theorem firstsBy_concat (items : List α) (a : α) :
    firstsBy same (items ++ [a]) =
      if (firstsBy same items).any (same · a) then firstsBy same items
      else firstsBy same items ++ [a] := by
  rw [firstsBy, List.foldl_append, ← firstsBy, List.foldl_cons, List.foldl_nil]

theorem firstsBy_sublist (items : List α) : (firstsBy same items).Sublist items := by
  induction items using List.reverseRecOn with
  | nil => exact .slnil
  | append_singleton items a ih =>
    rw [firstsBy_concat]
    split
    · exact ih.trans (List.sublist_append_left items [a])
    · exact ih.append_right [a]

theorem pairwise_firstsBy (items : List α) :
    (firstsBy same items).Pairwise fun a b => same a b = false := by
  induction items using List.reverseRecOn with
  | nil => exact .nil
  | append_singleton items a ih =>
    rw [firstsBy_concat]
    split
    · exact ih
    · next hnone =>
      refine List.pairwise_append.mpr ⟨ih, List.pairwise_singleton _ a, fun k hk b hb => ?_⟩
      obtain rfl := List.mem_singleton.mp hb
      exact Bool.eq_false_iff.mpr fun hsame => hnone (List.any_eq_true.mpr ⟨k, hk, hsame⟩)

/-- A row of items that differ stays as it is. -/
theorem firstsBy_of_pairwise (h : items.Pairwise fun a b => same a b = false) :
    firstsBy same items = items := by
  induction items using List.reverseRecOn with
  | nil => rfl
  | append_singleton items a ih =>
    obtain ⟨hitems, -, hlast⟩ := List.pairwise_append.mp h
    have hnone : items.any (same · a) = false :=
      List.any_eq_false.mpr fun k hk => by simp [hlast k hk a List.mem_cons_self]
    rw [firstsBy_concat, ih hitems, hnone]
    rfl

/-- An item is kept, or it is the same as a kept one before it. The order of the row may be any
relation between earlier and later items. -/
theorem mem_firstsBy_or_before {before : α → α → Prop} (h : items.Pairwise before) {a : α}
    (ha : a ∈ items) :
    a ∈ firstsBy same items ∨ ∃ k ∈ firstsBy same items, before k a ∧ same k a = true := by
  induction items using List.reverseRecOn with
  | nil => exact absurd ha List.not_mem_nil
  | append_singleton items x ih =>
    obtain ⟨hitems, -, hlast⟩ := List.pairwise_append.mp h
    have hkept : ∀ k ∈ firstsBy same items, k ∈ firstsBy same (items ++ [x]) := by
      intro k hk
      rw [firstsBy_concat]
      split
      · exact hk
      · exact List.mem_append_left [x] hk
    rcases List.mem_append.mp ha with ha | ha
    · rcases ih hitems ha with ha | ⟨k, hk, hbefore⟩
      · exact .inl (hkept a ha)
      · exact .inr ⟨k, hkept k hk, hbefore⟩
    · obtain rfl := List.mem_singleton.mp ha
      rw [firstsBy_concat]
      split
      · next hany =>
        obtain ⟨k, hk, hsame⟩ := List.any_eq_true.mp hany
        have hmem := (firstsBy_sublist items).subset hk
        exact .inr ⟨k, hk, hlast k hmem a List.mem_cons_self, hsame⟩
      · exact .inl (List.mem_append_right _ List.mem_cons_self)

/-- Items that are told apart by something they carry. -/
theorem map_firstsBy (f : β → α) (items : List β) :
    (firstsBy (fun a b => same (f a) (f b)) items).map f = firstsBy same (items.map f) := by
  induction items using List.reverseRecOn with
  | nil => rfl
  | append_singleton items a ih =>
    rw [List.map_append, List.map_singleton, firstsBy_concat, firstsBy_concat, ← ih,
      List.any_map, apply_ite (List.map f), List.map_append, List.map_singleton]
    rfl

section Classes

variable (hs : Equivalence fun a b => same a b = true)
include hs

theorem exists_firstsBy_same {a : α} (ha : a ∈ items) :
    ∃ k ∈ firstsBy same items, same k a = true := by
  have hall : items.Pairwise fun _ _ => True := List.pairwise_of_forall fun _ _ => trivial
  rcases mem_firstsBy_or_before hall ha with hkept | ⟨k, hk, -, hsame⟩
  · exact ⟨a, hkept, hs.refl a⟩
  · exact ⟨k, hk, hsame⟩

/-- An item that no kept item is the same as is in no class of the row. -/
theorem not_same_of_not_any {a : α} (h : ¬ (firstsBy same items).any (same · a) = true) :
    ∀ b ∈ items, same a b = false := by
  intro b hb
  obtain ⟨k, hk, hsame⟩ := exists_firstsBy_same hs hb
  refine Bool.eq_false_iff.mpr fun hab => h (List.any_eq_true.mpr ⟨k, hk, ?_⟩)
  exact hs.trans hsame (hs.symm hab)

/-- What is kept is the first of its class. -/
theorem find?_of_mem_firstsBy {a : α} (ha : a ∈ firstsBy same items) :
    items.find? (same a) = some a := by
  induction items using List.reverseRecOn with
  | nil => exact absurd ha List.not_mem_nil
  | append_singleton items x ih =>
    rw [List.find?_append]
    rw [firstsBy_concat] at ha
    split at ha
    · rw [ih ha, Option.some_or]
    · next hnone =>
      rcases List.mem_append.mp ha with ha | ha
      · rw [ih ha, Option.some_or]
      · obtain rfl := List.mem_singleton.mp ha
        have hnew := not_same_of_not_any hs hnone
        have hnotFound : items.find? (same a) = none :=
          List.find?_eq_none.mpr fun b hb => by simp [hnew b hb]
        rw [hnotFound, Option.none_or, List.find?_singleton, if_pos (hs.refl a)]

/-- The kept items stand in the order of the first items of their classes. -/
theorem pairwise_findIdx_firstsBy :
    (firstsBy same items).Pairwise fun a b => items.findIdx (same a) < items.findIdx (same b) := by
  induction items using List.reverseRecOn with
  | nil => exact .nil
  | append_singleton items x ih =>
    have hold {a : α} (ha : a ∈ firstsBy same items) :
        (items ++ [x]).findIdx (same a) = items.findIdx (same a) ∧
          items.findIdx (same a) < items.length := by
      have hfound : items.findIdx (same a) < items.length :=
        List.findIdx_lt_length_of_exists ⟨a, (firstsBy_sublist items).subset ha, hs.refl a⟩
      exact ⟨by rw [List.findIdx_append, if_pos hfound], hfound⟩
    have hkept : (firstsBy same items).Pairwise fun a b =>
        (items ++ [x]).findIdx (same a) < (items ++ [x]).findIdx (same b) :=
      ih.imp_of_mem fun ha hb hlt => by rwa [(hold ha).1, (hold hb).1]
    rw [firstsBy_concat]
    split
    · exact hkept
    · next hnone =>
      refine List.pairwise_append.mpr ⟨hkept, List.pairwise_singleton _ x, fun a ha b hb => ?_⟩
      obtain rfl := List.mem_singleton.mp hb
      have hnew : items.findIdx (same b) = items.length :=
        List.findIdx_eq_length_of_false fun c hc => by
          simpa using not_same_of_not_any hs hnone c hc
      have hlast : (items ++ [b]).findIdx (same b) ≥ items.length := by
        rw [List.findIdx_append, hnew, if_neg (Nat.lt_irrefl _)]
        exact Nat.le_add_left _ _
      rw [(hold ha).1]
      exact Nat.lt_of_lt_of_le (hold ha).2 hlast

end Classes

end SchemaGen.Table
