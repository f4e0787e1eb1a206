import SchemaGen.Idl.Contents
import SchemaGen.Proofs.Derive.Structs
import SchemaGen.Proofs.Schema.Reload

namespace SchemaGen

open Idl Json

namespace Json

theorem itemsHeight_le {items : List Json} {n : Nat} (h : ∀ j ∈ items, j.height ≤ n) :
    itemsHeight items ≤ n := by
  induction items with
  | nil => exact Nat.zero_le n
  | cons item items ih =>
    rw [List.forall_mem_cons] at h
    exact Nat.max_le.mpr ⟨h.1, ih h.2⟩

theorem membersHeight_le {members : List (String × Json)} {n : Nat}
    (h : ∀ m ∈ members, m.2.height ≤ n) : membersHeight members ≤ n := by
  induction members with
  | nil => exact Nat.zero_le n
  | cons m members ih =>
    rw [List.forall_mem_cons] at h
    exact Nat.max_le.mpr ⟨h.1, ih h.2⟩

end Json

theorem Constant.encodeItems_eq_map (items : List Constant) :
    encodeItems items = items.map encode := by
  induction items with
  | nil => rfl
  | cons item items ih => rw [encodeItems, ih, List.map_cons]

theorem Constant.encodePairs_eq_map (pairs : List (Constant × Constant)) :
    encodePairs pairs = pairs.map fun p => .array [encode p.1, encode p.2] := by
  induction pairs with
  | nil => rfl
  | cons p pairs ih => rw [encodePairs, ih, List.map_cons]

theorem SchemaType.encodeFields_eq_map (fields : List (String × Field)) :
    encodeFields fields = fields.map fun e => (e.1, e.2.encode) := by
  induction fields with
  | nil => rfl
  | cons e fields ih =>
    rw [encodeFields, ih, List.map_cons]
    rfl

theorem height_ofNumberValue (n : Numeric.Binary64) : (ofNumberValue n).height = 0 := by
  rw [ofNumberValue]
  split <;> rfl

theorem Idl.FieldType.height_schemaOf (t : FieldType) :
    (schemaOf t).encode.height ≤ 2 * t.nesting + 1 := by
  induction t with
  | base b =>
    rw [schemaOf]
    cases b <;> decide
  | named name =>
    rw [schemaOf, SchemaType.encode]
    exact Nat.succ_le_succ (Nat.zero_le _)
  | list t ih | set t ih =>
    rw [schemaOf, SchemaType.encode, height_variant, nesting]
    omega
  | map k v ihk ihv =>
    rw [schemaOf, SchemaType.encode, height_variant, height, membersHeight, membersHeight,
      membersHeight, nesting]
    omega

namespace Idl.ConstExpr

mutual

theorem height_value (e : ConstExpr) : e.value.encode.height ≤ 3 * e.nesting + 1 := by
  match e with
  | bool _ | int _ | double _ | string _ | identifier _ =>
    rw [value, Constant.encode, height_variant]
    simp only [height, height_ofNumberValue]
    omega
  | list items =>
    rw [value, Constant.encode, height_variant, height, Constant.encodeItems_eq_map, nesting]
    have h := itemsHeight_le (List.forall_mem_map.mpr (height_values items))
    omega
  | map entries =>
    rw [value, Constant.ofEntries, Constant.encode, height_variant, height,
      Constant.encodePairs_eq_map, nesting]
    have h : itemsHeight ((Table.ofEntriesBy Constant.sameKey (entryValues entries)).map fun p =>
        .array [p.1.encode, p.2.encode]) ≤ 3 * entriesNesting entries + 2 := by
      refine itemsHeight_le (List.forall_mem_map.mpr fun p hp => ?_)
      obtain ⟨⟨q, hq, hkey⟩, r, hr, hvalue⟩ := Table.mem_ofEntriesBy hp
      have hk := (height_entryValues entries q hq).1
      have hv := (height_entryValues entries r hr).2
      rw [height, itemsHeight, itemsHeight, itemsHeight, hkey, hvalue]
      omega
    omega

theorem height_values (items : List ConstExpr) :
    ∀ v ∈ values items, v.encode.height ≤ 3 * itemsNesting items + 1 := by
  match items with
  | [] => simp [values]
  | item :: rest =>
    rw [values, itemsNesting, List.forall_mem_cons]
    have hi := height_value item
    refine ⟨by omega, fun v hv => ?_⟩
    have hr := height_values rest v hv
    omega

theorem height_entryValues (entries : List (ConstExpr × ConstExpr)) :
    ∀ p ∈ entryValues entries, p.1.encode.height ≤ 3 * entriesNesting entries + 1 ∧
      p.2.encode.height ≤ 3 * entriesNesting entries + 1 := by
  match entries with
  | [] => simp [entryValues]
  | (key, val) :: rest =>
    rw [entryValues, entriesNesting, List.forall_mem_cons]
    have hk := height_value key
    have hv := height_value val
    refine ⟨⟨show key.value.encode.height ≤ _ by omega, show val.value.encode.height ≤ _ by omega⟩,
      fun p hp => ?_⟩
    have hr := height_entryValues rest p hp
    omega

end

end Idl.ConstExpr

theorem height_fieldSchema (options : Options) (f : FieldDef) :
    (Session.fieldSchema options f).encode.height ≤ 3 * f.nesting + 3 := by
  have ht := f.type.height_schemaOf
  rw [FieldDef.nesting, Session.fieldSchema]
  split
  · next e he =>
    have hv := e.height_value
    rw [he, Option.map_some, Option.getD_some, SchemaType.encode, height_variant, height,
      membersHeight, membersHeight, membersHeight]
    omega
  · split
    · rw [SchemaType.encode, height_variant]
      omega
    · omega

theorem height_structOf (options : Options) {d : StructDef} {n : Nat}
    (h : ∀ f ∈ d.fields, f.nesting ≤ n) : (structOf options d).encode.height ≤ 3 * n + 6 := by
  have hfields :
      membersHeight (SchemaType.encodeFields (structOf options d).fields) ≤ 3 * n + 4 := by
    rw [SchemaType.encodeFields_eq_map]
    refine membersHeight_le (List.forall_mem_map.mpr fun e he => ?_)
    obtain ⟨f, hf, rfl⟩ := (structOf_eq options d).2.2 e he
    have htype := height_fieldSchema options f
    have hn := h f hf
    rw [FieldOf.height_encode, (fieldOf_eq options f).2.1]
    omega
  rw [Schema.encode]
  simp [height, membersHeight]
  omega

end SchemaGen
