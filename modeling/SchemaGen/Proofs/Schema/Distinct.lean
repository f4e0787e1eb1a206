import SchemaGen.Proofs.Schema.TypeEquality

namespace SchemaGen.SchemaType

variable {members : List SchemaType}

theorem distinct_eq_firstsBy (members : List SchemaType) :
    distinct members = Table.firstsBy equal members := rfl

theorem distinct_distinct (members : List SchemaType) :
    distinct (distinct members) = distinct members :=
  Table.firstsBy_of_pairwise (Table.pairwise_firstsBy members)

theorem pairwise_zipIdx {α : Type} (items : List α) :
    items.zipIdx.Pairwise fun a b => a.2 < b.2 := by
  have hplaces : (items.zipIdx.map (·.2)).Pairwise (· < ·) := by
    rw [List.zipIdx_map_snd]
    exact List.pairwise_lt_range'
  exact List.pairwise_map.mp hplaces

/-- The members that are kept, each with its place among all members. -/
def keptPlaces (members : List SchemaType) : List (SchemaType × Nat) :=
  Table.firstsBy (fun a b => equal a.1 b.1) members.zipIdx

theorem map_keptPlaces (members : List SchemaType) :
    (keptPlaces members).map (·.1) = distinct members := by
  rw [keptPlaces, Table.map_firstsBy, List.zipIdx_map_fst, distinct_eq_firstsBy]

theorem keptPlaces_sublist (members : List SchemaType) :
    (keptPlaces members).Sublist members.zipIdx :=
  Table.firstsBy_sublist _

theorem isKeyed_of_mem_zipIdx (hk : ∀ m ∈ members, m.isKeyed = true) {m : SchemaType × Nat}
    (hm : m ∈ members.zipIdx) : m.1.isKeyed = true :=
  hk _ (List.fst_mem_of_mem_zipIdx hm)

/-- No kept member equals an earlier one, nor the earlier one it. -/
theorem pairwise_keptPlaces (hk : ∀ m ∈ members, m.isKeyed = true) :
    (keptPlaces members).Pairwise fun a b => equal a.1 b.1 = false ∧ equal b.1 a.1 = false := by
  have hkeyed {m : SchemaType × Nat} (hm : m ∈ keptPlaces members) : m.1.isKeyed = true :=
    isKeyed_of_mem_zipIdx hk ((keptPlaces_sublist members).subset hm)
  refine (Table.pairwise_firstsBy members.zipIdx).imp_of_mem fun ha hb hne => ⟨hne, ?_⟩
  rw [equal_comm (hkeyed hb) (hkeyed ha), hne]

/-- What is dropped equals a kept member before it, and that member it. -/
theorem exists_keptPlaces (hk : ∀ m ∈ members, m.isKeyed = true) {m : SchemaType × Nat}
    (hm : m ∈ members.zipIdx) (hdropped : m ∉ keptPlaces members) :
    ∃ k ∈ keptPlaces members, k.2 < m.2 ∧ equal k.1 m.1 = true ∧ equal m.1 k.1 = true := by
  rcases Table.mem_firstsBy_or_before (pairwise_zipIdx members) hm with h | ⟨k, hkept, hlt, he⟩
  · exact absurd h hdropped
  · have hkeyed := isKeyed_of_mem_zipIdx hk ((keptPlaces_sublist members).subset hkept)
    exact ⟨k, hkept, hlt, he, equal_symm _ _ hkeyed (isKeyed_of_mem_zipIdx hk hm) he⟩

/-- The members of a union of distinct members are a part of the given row in which no member equals
an earlier one. Each other member of the row equals a kept one that stands before it, and the kept
ones alone are kept again. Equality is symmetric, a type equals itself exactly if there is no NaN in
it, and the order of fields and annotations does not count on either side. The tables in the
members have each key once. -/
theorem unionOf_keeps_firsts (hk : ∀ m ∈ members, m.isKeyed = true) :
    (∃ kept : List (SchemaType × Nat), kept.Sublist members.zipIdx ∧
      unionOf members = union (kept.map (·.1)) ∧
      (kept.Pairwise fun a b => equal a.1 b.1 = false ∧ equal b.1 a.1 = false) ∧
      (∀ m ∈ members.zipIdx, m ∉ kept →
        ∃ k ∈ kept, k.2 < m.2 ∧ equal k.1 m.1 = true ∧ equal m.1 k.1 = true) ∧
      unionOf (kept.map (·.1)) = union (kept.map (·.1))) ∧
    ∀ a b : SchemaType, a.isKeyed = true → b.isKeyed = true →
      equal a b = equal b a ∧ (equal a a = true ↔ .nan ∉ a.numbers) ∧
        ∀ r : Rearrangement,
          equal (a.rearrange r) b = equal a b ∧ equal b (a.rearrange r) = equal b a := by
  refine ⟨⟨keptPlaces members, keptPlaces_sublist members, ?union, pairwise_keptPlaces hk,
    fun m hm => exists_keptPlaces hk hm, ?again⟩, fun a b ha hb => ?equality⟩
  case union => rw [map_keptPlaces, unionOf]
  case again => rw [map_keptPlaces, unionOf, distinct_distinct]
  case equality =>
    exact ⟨equal_comm ha hb, equal_self_iff a ha, fun r =>
      ⟨equal_rearrange r a b, equal_rearrange_right r ha hb⟩⟩

/-- An object with a default and annotations. -/
def pointType : SchemaType :=
  object [("x", ⟨"x", default number (.number .zero), [("unit", "m"), ("axis", "1")]⟩),
    ("name", ⟨"name", string, []⟩)]

/-- The same with the other zero and in another order. -/
def reorderedPointType : SchemaType :=
  object [("name", ⟨"name", string, []⟩),
    ("x", ⟨"x", default number (.number (.neg .zero)), [("axis", "1"), ("unit", "m")]⟩)]

/-- The two objects, with NaN twice. -/
def pointTypes : List SchemaType :=
  [pointType, default number (.number .nan), reorderedPointType, default number (.number .nan)]

theorem unionOf_keeps_firsts_points :
    (∀ m ∈ pointTypes, m.isKeyed = true) ∧ (distinct pointTypes).length = 3 ∧
      (∃ kept : List (SchemaType × Nat), kept.Sublist pointTypes.zipIdx ∧
        unionOf pointTypes = union (kept.map (·.1)) ∧
        (kept.Pairwise fun a b => equal a.1 b.1 = false ∧ equal b.1 a.1 = false) ∧
        (∀ m ∈ pointTypes.zipIdx, m ∉ kept →
          ∃ k ∈ kept, k.2 < m.2 ∧ equal k.1 m.1 = true ∧ equal m.1 k.1 = true) ∧
        unionOf (kept.map (·.1)) = union (kept.map (·.1))) ∧
      equal pointType reorderedPointType = equal reorderedPointType pointType ∧
      equal reorderedPointType pointType = true := by
  have hk : ∀ m ∈ pointTypes, m.isKeyed = true := by decide +kernel
  obtain ⟨hkept, hequality⟩ := unionOf_keeps_firsts hk
  exact ⟨hk, by decide +kernel, hkept,
    (hequality pointType reorderedPointType (by decide +kernel) (by decide +kernel)).1,
    by decide +kernel⟩

end SchemaGen.SchemaType
