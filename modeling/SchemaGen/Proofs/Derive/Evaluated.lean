import SchemaGen.Derive.Constant
import SchemaGen.Proofs.Schema.FilledMap

namespace SchemaGen.Constant

theorem mem_itemParts {items : List Constant} {part : Constant} :
    part ∈ itemParts items ↔ ∃ item ∈ items, part ∈ item.parts := by
  induction items with
  | nil => simp [itemParts]
  | cons item items ih => simp [itemParts, ih]

theorem mem_pairParts {pairs : List (Constant × Constant)} {part : Constant} :
    part ∈ pairParts pairs ↔ ∃ p ∈ pairs, part ∈ p.1.parts ∨ part ∈ p.2.parts := by
  induction pairs with
  | nil => simp [pairParts]
  | cons p pairs ih => simp [pairParts, ih, or_assoc]

end SchemaGen.Constant

namespace SchemaGen.Idl.ConstExpr

open Constant (sameKey)

/- Of entries whose keys are the same a pair has the key of one and the value of one. -/
mutual

theorem exists_value_of_mem_parts (e : ConstExpr) :
    ∀ part ∈ e.value.parts, ∃ f : ConstExpr, f.value = part := by
  intro part h
  match e with
  | .bool b => exact ⟨.bool b, (List.mem_singleton.mp h).symm⟩
  | .int text | .double text | .string text =>
    exact ⟨.int text, (List.mem_singleton.mp h).symm⟩
  | .identifier name => exact ⟨.identifier name, (List.mem_singleton.mp h).symm⟩
  | .list items =>
    rcases List.mem_cons.mp h with rfl | h
    · exact ⟨.list items, rfl⟩
    · obtain ⟨item, hitem, h⟩ := Constant.mem_itemParts.mp h
      exact exists_value_of_mem_items items item hitem part h
  | .map entries =>
    rcases List.mem_cons.mp h with rfl | h
    · exact ⟨.map entries, rfl⟩
    · obtain ⟨p, hp, h⟩ := Constant.mem_pairParts.mp h
      obtain ⟨⟨q, hq, hkey⟩, r, hr, hvalue⟩ := Table.mem_ofEntriesBy hp
      rw [hkey, hvalue] at h
      rcases h with h | h
      · exact (exists_value_of_mem_entries entries q hq).1 part h
      · exact (exists_value_of_mem_entries entries r hr).2 part h

theorem exists_value_of_mem_items (items : List ConstExpr) :
    ∀ v ∈ values items, ∀ part ∈ v.parts, ∃ f : ConstExpr, f.value = part := by
  match items with
  | [] => exact fun _ h => absurd h List.not_mem_nil
  | item :: items =>
    rw [values, List.forall_mem_cons]
    exact ⟨exists_value_of_mem_parts item, exists_value_of_mem_items items⟩

theorem exists_value_of_mem_entries (entries : List (ConstExpr × ConstExpr)) :
    ∀ p ∈ entryValues entries,
      (∀ part ∈ p.1.parts, ∃ f : ConstExpr, f.value = part) ∧
        ∀ part ∈ p.2.parts, ∃ f : ConstExpr, f.value = part := by
  match entries with
  | [] => exact fun _ h => absurd h List.not_mem_nil
  | (key, value) :: entries =>
    rw [entryValues, List.forall_mem_cons]
    exact ⟨⟨exists_value_of_mem_parts key, exists_value_of_mem_parts value⟩,
      exists_value_of_mem_entries entries⟩

end

theorem value_ne_null (e : ConstExpr) : e.value ≠ .null := by
  cases e <;> exact Constant.noConfusion

theorem value_ne_string (e : ConstExpr) (text : String) : e.value ≠ .string text := by
  cases e <;> exact Constant.noConfusion

theorem pairwise_of_value_eq_map {e : ConstExpr} {pairs : List (Constant × Constant)}
    (h : e.value = .map pairs) : pairs.Pairwise fun p q => sameKey p.1 q.1 = false := by
  cases e with
  | map entries =>
    obtain rfl := Constant.map.inj h
    exact List.pairwise_map.mp (Table.pairwise_keys_ofEntriesBy _)
  | bool _ | int _ | double _ | string _ | list _ | identifier _ => cases h

/-- Under each key that is written in a map stands the value of the last entry whose key is the
same, once both are evaluated. -/
theorem exists_pair_of_entry {entries : List (ConstExpr × ConstExpr)}
    {entry : ConstExpr × ConstExpr} (h : entry ∈ entries) :
    ∃ p ∈ Table.ofEntriesBy sameKey (entryValues entries), sameKey entry.1.value p.1 = true ∧
      (entries.reverse.find? fun f => sameKey entry.1.value f.1.value).map (·.2.value) =
        some p.2 := by
  have hs := Constant.sameKey_equivalence
  rw [entryValues_eq_map]
  have hmem : (entry.1.value, entry.2.value) ∈ entries.map fun e => (e.1.value, e.2.value) :=
    List.mem_map.mpr ⟨entry, h, rfl⟩
  obtain ⟨q, hq, hsame⟩ := Table.exists_ofEntriesBy_same hs hmem
  have hfound := (List.find?_isSome (p := (sameKey entry.1.value ·.1))).mpr
    ⟨q, hq, hs.symm hsame⟩
  obtain ⟨p, hp⟩ := Option.isSome_iff_exists.mp hfound
  have hkey : sameKey entry.1.value p.1 = true :=
    List.find?_some (p := fun q : Constant × Constant => sameKey entry.1.value q.1) hp
  refine ⟨p, List.mem_of_find?_eq_some hp, hkey, ?_⟩
  have hlast := Table.find?_ofEntriesBy hs
    (entries.map fun e => (e.1.value, e.2.value)) entry.1.value
  rw [hp, Option.map_some, ← List.map_reverse, List.find?_map, Option.map_map] at hlast
  exact hlast.symm

/-- In the value of an expression there is no text and no null at any depth, and the keys of each
map differ. A list has the values of its items in order. A map has for each key that is written in
it the value of the last entry whose key is the same once it is evaluated. -/
theorem value_merges_entries :
    (∀ e : ConstExpr, ∀ part ∈ e.value.parts,
      (∀ text, part ≠ .string text) ∧ part ≠ .null ∧
        ∀ pairs, part = .map pairs → pairs.Pairwise fun p q => sameKey p.1 q.1 = false) ∧
      (∀ items, (ConstExpr.list items).value = .list (items.map value)) ∧
      ∀ entries, ∃ pairs, (ConstExpr.map entries).value = .map pairs ∧
        ∀ entry ∈ entries, ∃ p ∈ pairs, sameKey entry.1.value p.1 = true ∧
          (entries.reverse.find? fun f => sameKey entry.1.value f.1.value).map (·.2.value) =
            some p.2 := by
  refine ⟨fun e part hpart => ?parts, fun items => ?list, fun entries => ?map⟩
  case parts =>
    obtain ⟨f, rfl⟩ := exists_value_of_mem_parts e part hpart
    exact ⟨f.value_ne_string, f.value_ne_null, fun pairs h => pairwise_of_value_eq_map h⟩
  case list => rw [value, values_eq_map]
  case map => exact ⟨_, rfl, fun entry h => exists_pair_of_entry h⟩

/-- Keys that are written in different ways are one key if their values are the same. -/
example :
    (ConstExpr.map [(.list [.int "1"], .identifier "a"), (.int "2", .bool true),
        (.list [.string " 0x1"], .identifier "b")]).value.literal =
      "\x7b [[1]]: b, 2: true \x7d" := by
  decide +kernel

end SchemaGen.Idl.ConstExpr
