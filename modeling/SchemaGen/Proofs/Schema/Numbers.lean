import SchemaGen.Schema.Contents

namespace SchemaGen

open Numeric

variable {f : Binary64 → Option Binary64}

namespace Constant

mutual

theorem mapNumbers?_self (v : Constant) (h : ∀ n ∈ v.numbers, f n = some n) :
    v.mapNumbers? f = some v := by
  match v with
  | bool _ | string _ | identifier _ | null => rfl
  | number n => rw [mapNumbers?, h n (by simp [numbers])]; rfl
  | list items => rw [mapNumbers?, mapItems?_self items h]; rfl
  | map pairs => rw [mapNumbers?, mapPairs?_self pairs h]; rfl

theorem mapItems?_self (items : List Constant) (h : ∀ n ∈ itemNumbers items, f n = some n) :
    mapItems? f items = some items := by
  match items with
  | [] => rfl
  | item :: rest =>
    simp only [itemNumbers, List.mem_append, or_imp, forall_and] at h
    rw [mapItems?, mapNumbers?_self item h.1, mapItems?_self rest h.2]
    rfl

theorem mapPairs?_self (pairs : List (Constant × Constant))
    (h : ∀ n ∈ pairNumbers pairs, f n = some n) : mapPairs? f pairs = some pairs := by
  match pairs with
  | [] => rfl
  | (key, value) :: rest =>
    simp only [pairNumbers, List.mem_append, or_imp, forall_and] at h
    rw [mapPairs?, mapNumbers?_self key h.1.1, mapNumbers?_self value h.1.2,
      mapPairs?_self rest h.2]
    rfl

end
end Constant

namespace SchemaType

mutual

theorem mapNumbers?_self (t : SchemaType) (h : ∀ n ∈ t.numbers, f n = some n) :
    t.mapNumbers? f = some t := by
  match t with
  | string | number | boolean | void | any | unknown => rfl
  | array t | set t | optional t => rw [mapNumbers?, mapNumbers?_self t h]; rfl
  | map k v =>
    simp only [numbers, List.mem_append, or_imp, forall_and] at h
    rw [mapNumbers?, mapNumbers?_self k h.1, mapNumbers?_self v h.2]
    rfl
  | default inner value =>
    simp only [numbers, List.mem_append, or_imp, forall_and] at h
    rw [mapNumbers?, mapNumbers?_self inner h.1, value.mapNumbers?_self h.2]
    rfl
  | union members => rw [mapNumbers?, mapMembers?_self members h]; rfl
  | object fields => rw [mapNumbers?, mapFields?_self fields h]; rfl

theorem mapMembers?_self (members : List SchemaType)
    (h : ∀ n ∈ memberNumbers members, f n = some n) : mapMembers? f members = some members := by
  match members with
  | [] => rfl
  | m :: rest =>
    simp only [memberNumbers, List.mem_append, or_imp, forall_and] at h
    rw [mapMembers?, mapNumbers?_self m h.1, mapMembers?_self rest h.2]
    rfl

theorem mapFields?_self (fields : List (String × Field))
    (h : ∀ n ∈ fieldNumbers fields, f n = some n) : mapFields? f fields = some fields := by
  match fields with
  | [] => rfl
  | (key, ⟨name, type, notes⟩) :: rest =>
    simp only [fieldNumbers, List.mem_append, or_imp, forall_and] at h
    rw [mapFields?, mapNumbers?_self type h.1, mapFields?_self rest h.2]
    rfl

end
end SchemaType

theorem isSome_both {α β γ : Type} (g : α → β → γ) (o : Option α) (p : Option β) :
    (do pure (g (← o) (← p)) : Option γ).isSome = (o.isSome && p.isSome) := by
  cases o <;> cases p <;> rfl

namespace Constant

mutual

theorem mapNumbers?_isSome (v : Constant) :
    (v.mapNumbers? f).isSome = v.numbers.all fun n => (f n).isSome := by
  match v with
  | bool _ | string _ | identifier _ | null => rfl
  | number n =>
    rw [mapNumbers?, Option.map_eq_map, Option.isSome_map, numbers, List.all_cons, List.all_nil,
      Bool.and_true]
  | list items =>
    rw [mapNumbers?, Option.map_eq_map, Option.isSome_map, mapItems?_isSome items, numbers]
  | map pairs =>
    rw [mapNumbers?, Option.map_eq_map, Option.isSome_map, mapPairs?_isSome pairs, numbers]

theorem mapItems?_isSome (items : List Constant) :
    (mapItems? f items).isSome = (itemNumbers items).all fun n => (f n).isSome := by
  match items with
  | [] => rfl
  | item :: rest =>
    rw [mapItems?, isSome_both (· :: ·), mapNumbers?_isSome item, mapItems?_isSome rest,
      itemNumbers, List.all_append]

theorem mapPairs?_isSome (pairs : List (Constant × Constant)) :
    (mapPairs? f pairs).isSome = (pairNumbers pairs).all fun n => (f n).isSome := by
  match pairs with
  | [] => rfl
  | (key, value) :: rest =>
    rw [pairNumbers, List.all_append, List.all_append, ← mapNumbers?_isSome key,
      ← mapNumbers?_isSome value, ← mapPairs?_isSome rest, mapPairs?]
    cases key.mapNumbers? f <;> cases value.mapNumbers? f <;> cases mapPairs? f rest <;> rfl

end
end Constant

namespace SchemaType

mutual

theorem mapNumbers?_isSome (t : SchemaType) :
    (t.mapNumbers? f).isSome = t.numbers.all fun n => (f n).isSome := by
  match t with
  | string | number | boolean | void | any | unknown => rfl
  | array t | set t | optional t =>
    rw [mapNumbers?, Option.map_eq_map, Option.isSome_map, mapNumbers?_isSome t, numbers]
  | map k v =>
    rw [mapNumbers?, isSome_both, mapNumbers?_isSome k, mapNumbers?_isSome v, numbers,
      List.all_append]
  | default inner value =>
    rw [mapNumbers?, isSome_both, mapNumbers?_isSome inner, value.mapNumbers?_isSome, numbers,
      List.all_append]
  | union members =>
    rw [mapNumbers?, Option.map_eq_map, Option.isSome_map, mapMembers?_isSome members, numbers]
  | object fields =>
    rw [mapNumbers?, Option.map_eq_map, Option.isSome_map, mapFields?_isSome fields, numbers]

theorem mapMembers?_isSome (members : List SchemaType) :
    (mapMembers? f members).isSome = (memberNumbers members).all fun n => (f n).isSome := by
  match members with
  | [] => rfl
  | m :: rest =>
    rw [mapMembers?, isSome_both (· :: ·), mapNumbers?_isSome m, mapMembers?_isSome rest,
      memberNumbers, List.all_append]

theorem mapFields?_isSome (fields : List (String × Field)) :
    (mapFields? f fields).isSome = (fieldNumbers fields).all fun n => (f n).isSome := by
  match fields with
  | [] => rfl
  | (key, ⟨name, type, notes⟩) :: rest =>
    rw [mapFields?, isSome_both fun t rest => (key, FieldOf.mk name t notes) :: rest,
      mapNumbers?_isSome type, mapFields?_isSome rest, fieldNumbers, List.all_append]

end

theorem mapFields?_cons {key name : String} {type : SchemaType} {notes : List (String × String)}
    {rest gs : List (String × Field)}
    (h : mapFields? f ((key, ⟨name, type, notes⟩) :: rest) = some gs) :
    ∃ t, type.mapNumbers? f = some t ∧
      ∃ hs, mapFields? f rest = some hs ∧ (key, ⟨name, t, notes⟩) :: hs = gs := by
  simpa [mapFields?, Option.bind_eq_some_iff] using h

theorem keys_mapFields? {fields gs : List (String × Field)} (h : mapFields? f fields = some gs) :
    Table.keys gs = Table.keys fields := by
  induction fields generalizing gs with
  | nil =>
    cases h
    rfl
  | cons e fields ih =>
    obtain ⟨t, -, hs, hrest, rfl⟩ := mapFields?_cons h
    exact congrArg (e.1 :: ·) (ih hrest)

end SchemaType

theorem Schema.mapNumbers?_isSome (s : Schema) :
    (s.mapNumbers? f).isSome = s.numbers.all fun n => (f n).isSome := by
  rw [mapNumbers?, Option.map_eq_map, Option.isSome_map, SchemaType.mapFields?_isSome, numbers]

end SchemaGen
