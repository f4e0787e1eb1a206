import SchemaGen.Proofs.Derive.Concatenation
import SchemaGen.Proofs.Derive.Evaluated
import SchemaGen.Proofs.Derive.Structs
import SchemaGen.Proofs.Schema.Reload
import SchemaGen.Schema.Invariants

namespace SchemaGen

open Json

section Rows

variable {α β : Type} {f : α → Option β} {as : List α} {bs : List β}

theorem mapM_cons_eq_some {a : α} :
    (a :: as).mapM f = some bs ↔ ∃ b cs, f a = some b ∧ as.mapM f = some cs ∧ bs = b :: cs := by
  rw [List.mapM_cons, Option.bind_eq_bind, Option.bind_eq_some_iff]
  constructor
  · rintro ⟨b, hb, h⟩
    obtain ⟨cs, hcs, h⟩ := Option.bind_eq_some_iff.mp h
    exact ⟨b, cs, hb, hcs, (Option.some.inj h).symm⟩
  · rintro ⟨b, cs, hb, hcs, rfl⟩
    exact ⟨b, hb, by rw [hcs]; rfl⟩

/-- What is read from all items of a row passes a test if the items pass one that goes with it. -/
theorem all_of_mapM {p : β → Bool} {q : α → Bool} (h : as.mapM f = some bs)
    (hpq : ∀ a b, f a = some b → p b = q a) : bs.all p = as.all q := by
  induction as generalizing bs with
  | nil =>
    obtain rfl := Option.some.inj h
    rfl
  | cons a as ih =>
    obtain ⟨b, cs, hb, hcs, rfl⟩ := mapM_cons_eq_some.mp h
    rw [List.all_cons, List.all_cons, hpq a b hb, ih hcs]

theorem all_congr_mem {p q : α → Bool} (h : ∀ a ∈ as, p a = q a) : as.all p = as.all q := by
  induction as with
  | nil => rfl
  | cons a as ih =>
    rw [List.forall_mem_cons] at h
    rw [List.all_cons, List.all_cons, h.1, ih h.2]

end Rows

namespace Constant

theorem itemsRegular_eq_all (items : List Constant) :
    itemsRegular items = items.all isRegular := by
  induction items with
  | nil => rfl
  | cons item items ih => rw [itemsRegular, ih, List.all_cons]

theorem pairsRegular_eq_all (pairs : List (Constant × Constant)) :
    pairsRegular pairs = pairs.all fun p => p.1.isRegular && p.2.isRegular := by
  induction pairs with
  | nil => rfl
  | cons p pairs ih => rw [pairsRegular, ih, List.all_cons]

variable {origin : Origin} {depth : Nat}

theorem pairUpTo_eq_some {j : Json} {p : Constant × Constant}
    (h : pairUpTo origin depth j = some p) :
    ∃ key value d, j = .array [key, value] ∧ depth = d + 1 ∧
      decodeUpTo origin d key = some p.1 ∧ decodeUpTo origin d value = some p.2 := by
  unfold pairUpTo at h
  split at h
  · next key value =>
    cases depth with
    | zero => cases h
    | succ d =>
      obtain ⟨k, hk, h⟩ := Option.bind_eq_some_iff.mp h
      obtain ⟨v, hv, h⟩ := Option.bind_eq_some_iff.mp h
      obtain rfl := Option.some.inj h
      exact ⟨key, value, d, rfl, rfl, hk, hv⟩
  · cases h

/-- The keys of pairs are read apart from their values. -/
theorem keys_of_pairs {items : List Json} {pairs : List (Constant × Constant)}
    (h : items.mapM (pairUpTo origin depth) = some pairs) :
    items.filterMap (keyUpTo origin depth) = pairs.map (·.1) := by
  induction items generalizing pairs with
  | nil =>
    obtain rfl := Option.some.inj h
    rfl
  | cons item items ih =>
    obtain ⟨p, ps, hp, hps, rfl⟩ := mapM_cons_eq_some.mp h
    obtain ⟨key, value, d, rfl, rfl, hkey, -⟩ := pairUpTo_eq_some hp
    have hk : keyUpTo origin (d + 1) (.array [key, value]) = some p.1 := hkey
    rw [List.filterMap_cons_some hk, ih hps, List.map_cons]

theorem isRegular_of_decodeUpTo {j : Json} {c : Constant}
    (h : decodeUpTo origin depth j = some c) : c.isRegular = regularUpTo origin depth j := by
  induction depth using Nat.strongRecOn generalizing origin j c with
  | ind depth ih =>
  cases depth with
  | zero => cases h
  | succ depth =>
    rw [decodeUpTo, Option.bind_eq_bind, Option.bind_eq_some_iff] at h
    obtain ⟨⟨name, content, place⟩, hv, h⟩ := h
    rw [regularUpTo, hv]
    dsimp only at h
    split at h
    case h_7 items =>
      cases depth with
      | zero => cases h
      | succ depth =>
        obtain ⟨cs, hcs, rfl⟩ := Option.map_eq_some_iff.mp h
        change itemsRegular cs = items.all (regularUpTo place depth)
        rw [itemsRegular_eq_all]
        exact all_of_mapM hcs fun a b hab => ih depth (by omega) hab
    case h_8 items =>
      cases depth with
      | zero => cases h
      | succ depth =>
        obtain ⟨pairs, hpairs, rfl⟩ := Option.map_eq_some_iff.mp h
        change items.mapM (pairUpTo place depth) = some pairs at hpairs
        rw [isRegular, ← keys_of_pairs hpairs, pairsRegular_eq_all]
        refine congrArg (keysDiffer _ && ·) (all_of_mapM hpairs fun a p hp => ?_)
        obtain ⟨key, value, d, rfl, rfl, hkey, hvalue⟩ := pairUpTo_eq_some hp
        rw [ih d (by omega) hkey, ih d (by omega) hvalue]
    case h_6 =>
      split at h
      · obtain rfl := Option.some.inj h
        rfl
      · cases h
    case h_9 => cases h
    all_goals
      obtain rfl := Option.some.inj h
      rfl

end Constant

namespace SchemaType

theorem membersRegular_eq_all (members : List SchemaType) :
    membersRegular members = members.all isRegular := by
  induction members with
  | nil => rfl
  | cons m members ih => rw [membersRegular, ih, List.all_cons]

theorem fieldsRegular_eq_all (fields : List (String × Field)) :
    fieldsRegular fields = fields.all fun e => e.2.name == e.1 && e.2.type.isRegular := by
  induction fields with
  | nil => rfl
  | cons e fields ih => rw [fieldsRegular, ih, List.all_cons]

/-- A type as it is read: its tables have each key once, and it is regular if a test says so. -/
def AsRead (t : SchemaType) (regular : Bool) : Prop :=
  t.isKeyed = true ∧ t.isRegular = regular

theorem nodup_of_texts? {j : Json} {notes : List (String × String)} (h : texts? j = some notes) :
    (Table.keys notes).Nodup := by
  unfold texts? at h
  split at h
  · obtain ⟨entries, -, h⟩ := Option.bind_eq_some_iff.mp h
    obtain rfl := Option.some.inj h
    exact Table.nodup_keys_ofEntries entries
  · cases h

theorem fieldWith?_eq_some {type : Json → Option SchemaType} {depth : Nat} {j : Json} {f : Field}
    (h : fieldWith? type depth j = some f) :
    ∃ name t annotations, fieldParts? j = some (name, t, annotations) ∧
      text? name = some f.name ∧ type t = some f.type ∧ (Table.keys f.annotations).Nodup := by
  have hmade (name t : Json) (notes : List (String × String)) (hn : (Table.keys notes).Nodup)
      (h : ((text? name).bind fun n => (type t).bind fun ty => some ⟨n, ty, notes⟩) = some f) :
      text? name = some f.name ∧ type t = some f.type ∧ (Table.keys f.annotations).Nodup := by
    obtain ⟨n, hname, h⟩ := Option.bind_eq_some_iff.mp h
    obtain ⟨ty, htype, h⟩ := Option.bind_eq_some_iff.mp h
    obtain rfl := Option.some.inj h
    exact ⟨hname, htype, hn⟩
  obtain ⟨⟨name, t, annotations⟩, hparts, h⟩ := Option.bind_eq_some_iff.mp h
  refine ⟨name, t, annotations, hparts, ?_⟩
  cases annotations with
  | none => exact hmade name t [] List.nodup_nil h
  | some a =>
    dsimp only at h
    split at h
    · cases h
    · obtain ⟨notes, hnotes, h⟩ := Option.bind_eq_some_iff.mp h
      exact hmade name t notes (nodup_of_texts? hnotes) h

/-- A field is read as its type is. -/
theorem isRegular_of_fieldWith? {type : Json → Option SchemaType} {test : Json → Bool}
    {depth : Nat} {j : Json} {f : Field} (h : fieldWith? type depth j = some f)
    (ht : ∀ t ty, type t = some ty → AsRead ty (test t)) (key : String) :
    f.isKeyed = true ∧ (f.name == key && f.type.isRegular) = fieldRegularWith test key j := by
  obtain ⟨name, t, annotations, hparts, hname, htype, hnotes⟩ := fieldWith?_eq_some h
  obtain ⟨hkeyed, hregular⟩ := ht t _ htype
  constructor
  · rw [FieldOf.isKeyed, hkeyed, decide_eq_true hnotes]
    rfl
  · rw [fieldRegularWith, hparts, Option.all_some]
    dsimp only
    rw [hname, hregular, Option.some_beq_some]

/-- The members of a table beside what they are read as. -/
theorem rows_of_mapM {field : Json → Option Field} {members : List (String × Json)}
    {entries : List (String × Field)}
    (h : members.mapM (fun m => (field m.2).map (m.1, ·)) = some entries) :
    ∃ rows : List (String × Json × Field), members = rows.map (fun r => (r.1, r.2.1)) ∧
      entries = rows.map (fun r => (r.1, r.2.2)) ∧ ∀ r ∈ rows, field r.2.1 = some r.2.2 := by
  induction members generalizing entries with
  | nil =>
    obtain rfl := Option.some.inj h
    exact ⟨[], rfl, rfl, by simp⟩
  | cons m members ih =>
    obtain ⟨e, es, he, hes, rfl⟩ := mapM_cons_eq_some.mp h
    obtain ⟨f, hf, rfl⟩ := Option.map_eq_some_iff.mp he
    obtain ⟨rows, rfl, rfl, hrows⟩ := ih hes
    exact ⟨(m.1, m.2, f) :: rows, rfl, rfl, List.forall_mem_cons.mpr ⟨hf, hrows⟩⟩

/-- Of a repeated key the same member stays among the fields as among what they are read from. -/
theorem isRegular_of_fieldsWith? {field : Json → Option Field} {test : String → Json → Bool}
    {j : Json} {fields : List (String × Field)} (h : fieldsWith? field j = some fields)
    (ht : ∀ f g, field f = some g → ∀ key,
      g.isKeyed = true ∧ (g.name == key && g.type.isRegular) = test key f) :
    AsRead (.object fields) (fieldsRegularWith test j) := by
  unfold fieldsWith? at h
  split at h
  · obtain ⟨entries, hentries, h⟩ := Option.bind_eq_some_iff.mp h
    obtain ⟨rows, rfl, rfl, hrows⟩ := rows_of_mapM hentries
    obtain rfl := Option.some.inj h
    have hread (r : String × Json × Field) (hr : r ∈ Table.ofEntries rows) :=
      have ⟨_, q, hq, hvalue⟩ := Table.mem_ofEntriesBy hr
      ht r.2.1 r.2.2 (hvalue ▸ hrows q hq) r.1
    constructor
    · rw [isKeyed, decide_eq_true (Table.nodup_keys_ofEntries _), Bool.true_and,
        fieldsKeyed_eq_all, Table.ofEntries_map, List.all_map, List.all_eq_true]
      exact fun r hr => (hread r hr).1
    · rw [isRegular, fieldsRegular_eq_all, fieldsRegularWith, Table.ofEntries_map,
        Table.ofEntries_map, List.all_map, List.all_map]
      exact all_congr_mem fun r hr => (hread r hr).2
  · cases h

theorem asRead_of_leaf {leaf t : SchemaType} {content : Option Json}
    (h : (if isNothing content then some leaf else none) = some t)
    (hleaf : AsRead leaf true) : AsRead t true := by
  split at h
  · obtain rfl := Option.some.inj h
    exact hleaf
  · cases h

section Parts

variable {read : Json → Option SchemaType} {test : Json → Bool}
    (hread : ∀ j u, read j = some u → AsRead u (test j))
include hread

theorem asRead_of_part {make : SchemaType → SchemaType} {j : Json} {t : SchemaType}
    (h : make <$> read j = some t) (hkeyed : ∀ u, (make u).isKeyed = u.isKeyed)
    (hregular : ∀ u, (make u).isRegular = u.isRegular) : AsRead t (test j) := by
  obtain ⟨u, hu, rfl⟩ := Option.map_eq_some_iff.mp h
  rw [AsRead, hkeyed, hregular]
  exact hread j u hu

theorem asRead_of_union {members : List Json} {t : SchemaType}
    (h : union <$> members.mapM read = some t) : AsRead t (members.all test) := by
  obtain ⟨ts, hts, rfl⟩ := Option.map_eq_some_iff.mp h
  have hkeyed := all_of_mapM (q := fun _ => true) hts fun a u hu => (hread a u hu).1
  constructor
  · rw [isKeyed, membersKeyed_eq_all, hkeyed, List.all_eq_true]
    exact fun _ _ => rfl
  · rw [isRegular, membersRegular_eq_all]
    exact all_of_mapM hts fun a u hu => (hread a u hu).2

theorem asRead_of_map {content : Json} {t : SchemaType}
    (h : (do
      let (k, v) ← pair? "key" "value" content
      pure (map (← read k) (← read v))) = some t) :
    AsRead t ((pair? "key" "value" content).all fun (k, v) => test k && test v) := by
  obtain ⟨⟨k, v⟩, hparts, h⟩ := Option.bind_eq_some_iff.mp h
  obtain ⟨key, hkey, h⟩ := Option.bind_eq_some_iff.mp h
  obtain ⟨value, hvalue, h⟩ := Option.bind_eq_some_iff.mp h
  obtain rfl := Option.some.inj h
  obtain ⟨hkeyed, hregular⟩ := hread _ _ hkey
  obtain ⟨hkeyed', hregular'⟩ := hread _ _ hvalue
  rw [AsRead, hparts, Option.all_some, isKeyed, isRegular, hkeyed, hkeyed', hregular, hregular']
  exact ⟨rfl, rfl⟩

theorem asRead_of_default {origin : Origin} {depth : Nat} {content : Json} {t : SchemaType}
    (h : (do
      let (i, v) ← pair? "inner" "value" content
      pure (default (← read i) (← Constant.decodeUpTo origin depth v))) = some t) :
    AsRead t ((pair? "inner" "value" content).all fun (i, v) =>
      test i && Constant.regularUpTo origin depth v) := by
  obtain ⟨⟨i, v⟩, hparts, h⟩ := Option.bind_eq_some_iff.mp h
  obtain ⟨inner, hinner, h⟩ := Option.bind_eq_some_iff.mp h
  obtain ⟨value, hvalue, h⟩ := Option.bind_eq_some_iff.mp h
  obtain rfl := Option.some.inj h
  obtain ⟨hkeyed, hregular⟩ := hread _ _ hinner
  rw [AsRead, hparts, Option.all_some, isKeyed, isRegular, hkeyed, hregular,
    Constant.isRegular_of_decodeUpTo hvalue]
  exact ⟨rfl, rfl⟩

end Parts

/-- What is read within a depth is regular exactly if what it is read from is. -/
theorem asRead_of_decodeUpTo {origin : Origin} {depth : Nat} {j : Json} {t : SchemaType}
    (h : decodeUpTo origin depth j = some t) : AsRead t (regularUpTo origin depth j) := by
  induction depth using Nat.strongRecOn generalizing origin j t with
  | ind depth ih =>
  have hread {d : Nat} (hd : d < depth) (place : Origin) (j : Json) (u : SchemaType)
      (h : decodeUpTo place d j = some u) := ih d hd h
  cases depth with
  | zero => cases h
  | succ depth =>
    rw [decodeUpTo, Option.bind_eq_bind, Option.bind_eq_some_iff] at h
    obtain ⟨⟨name, content, place⟩, hv, h⟩ := h
    rw [regularUpTo, hv]
    dsimp only at h
    -- The cases stand in the order of the variants, the leaves before those with contents.
    split at h
    case h_7 | h_8 | h_9 =>
      exact asRead_of_part (hread (by omega) place) h (fun _ => rfl) fun _ => rfl
    case h_10 members =>
      cases depth with
      | zero => cases h
      | succ depth => exact asRead_of_union (hread (by omega) place) h
    case h_11 content =>
      cases depth with
      | zero => cases h
      | succ depth => exact asRead_of_map (hread (by omega) place) h
    case h_12 content =>
      cases depth with
      | zero => cases h
      | succ depth => exact asRead_of_default (hread (by omega) place) h
    case h_13 content =>
      cases depth with
      | zero => cases h
      | succ depth =>
        obtain ⟨fields, hfields, rfl⟩ := Option.map_eq_some_iff.mp h
        refine isRegular_of_fieldsWith? hfields fun f g hfield key => ?_
        cases depth with
        | zero => cases hfield
        | succ depth => exact isRegular_of_fieldWith? hfield (hread (by omega) place) key
    case h_14 => cases h
    all_goals exact asRead_of_leaf h ⟨rfl, rfl⟩

end SchemaType

theorem Schema.asRead_of_decode? {j : Json} {s : Schema} (h : Schema.decode? j = some s) :
    s.isKeyed = true ∧ s.isRegular = Schema.isReadRegular j := by
  obtain ⟨⟨name, content⟩, hparts, h⟩ := Option.bind_eq_some_iff.mp h
  obtain ⟨n, -, h⟩ := Option.bind_eq_some_iff.mp h
  obtain ⟨fields, hfields, h⟩ := Option.bind_eq_some_iff.mp h
  obtain rfl := Option.some.inj h
  rw [isReadRegular, hparts, Option.all_some]
  refine SchemaType.isRegular_of_fieldsWith? hfields fun f g hfield key => ?_
  exact SchemaType.isRegular_of_fieldWith? hfield
    (fun t ty hty => SchemaType.asRead_of_decodeUpTo hty) key

/-- A property of what is read from a value is one of what is read from its text. -/
theorem of_text {α : Type} {decode : Json → Option α} {P : α → Bool → Prop} {test : Json → Bool}
    (h : ∀ j a, decode j = some a → P a (test j)) {text : String} {a : α}
    (ha : (parse? text).bind decode = some a) : P a ((parse? text).any test) := by
  obtain ⟨j, hj, hdecode⟩ := Option.bind_eq_some_iff.mp ha
  rw [hj, Option.any_some]
  exact h j a hdecode

/-- From a text that is accepted a constant, a type or a struct is read with each key of an object
once. Keys of a map that differ, and fields under their names, it has exactly if the text has them:
nothing on the way asks for them. -/
theorem decode?_regular (text : String) :
    (∀ c : Constant, (parse? text).bind Constant.decode? = some c →
      c.isRegular = (parse? text).any Constant.isReadRegular) ∧
    (∀ t : SchemaType, (parse? text).bind SchemaType.decode? = some t →
      t.isKeyed = true ∧ t.isRegular = (parse? text).any SchemaType.isReadRegular) ∧
    (∀ s : Schema, (parse? text).bind Schema.decode? = some s →
      s.isKeyed = true ∧ s.isRegular = (parse? text).any Schema.isReadRegular) :=
  ⟨fun _ => of_text fun _ _ => Constant.isRegular_of_decodeUpTo,
    fun _ => of_text fun _ _ => SchemaType.asRead_of_decodeUpTo,
    fun _ => of_text (P := fun (s : Schema) b => s.isKeyed = true ∧ s.isRegular = b)
      fun _ _ => Schema.asRead_of_decode?⟩

/-- A map with two keys, a type with it for a default and a struct with a field of that type. -/
theorem decode?_regular_default :
    let map := "[\"Map\",[[[\"Null\",null],[\"Null\",null]],[[\"Bool\",true],[\"Null\",null]]]]"
    let type := "[\"Default\",\x7b\"inner\":[\"Any\",null],\"value\":" ++ map ++ "\x7d]"
    let struct := "[\"S\",\x7b\"a\":[\"a\"," ++ type ++ "]\x7d]"
    (∃ c, (parse? map).bind Constant.decode? = some c ∧ c.isRegular = true) ∧
      (∃ t, (parse? type).bind SchemaType.decode? = some t ∧ t.isRegular = true) ∧
      ∃ s, (parse? struct).bind Schema.decode? = some s ∧ s.isRegular = true := by
  intro map type struct
  have hc : (((parse? map).bind Constant.decode?).isSome &&
    (parse? map).any Constant.isReadRegular) = true := by decide +kernel
  have ht : (((parse? type).bind SchemaType.decode?).isSome &&
    (parse? type).any SchemaType.isReadRegular) = true := by decide +kernel
  have hs : (((parse? struct).bind Schema.decode?).isSome &&
    (parse? struct).any Schema.isReadRegular) = true := by decide +kernel
  rw [Bool.and_eq_true, Option.isSome_iff_exists] at hc ht hs
  obtain ⟨⟨c, hc⟩, hregular⟩ := hc
  obtain ⟨⟨t, ht⟩, hregular'⟩ := ht
  obtain ⟨⟨s, hs⟩, hregular''⟩ := hs
  exact ⟨⟨c, hc, ((decode?_regular map).1 c hc).trans hregular⟩,
    ⟨t, ht, ((decode?_regular type).2.1 t ht).2.trans hregular'⟩,
    ⟨s, hs, ((decode?_regular struct).2.2 s hs).2.trans hregular''⟩⟩

/-- A map with one key twice is read as it stands, and so is a field under another name. -/
theorem not_regular_repeated :
    let map := "\x7b\"kind\":\"Map\",\"value\":[[\x7b\"kind\":\"Null\"\x7d," ++
      "\x7b\"kind\":\"Null\"\x7d],[\x7b\"kind\":\"Null\"\x7d," ++
      "\x7b\"kind\":\"Bool\",\"value\":true\x7d]]\x7d"
    let struct := "\x7b\"name\":\"S\",\"fields\":\x7b\"a\":" ++
      "\x7b\"name\":\"b\",\"type\":\x7b\"type\":\"Any\"\x7d\x7d\x7d\x7d"
    (∃ c, (parse? map).bind Constant.decode? = some c ∧ ¬ c.isRegular = true) ∧
      ∃ s, (parse? struct).bind Schema.decode? = some s ∧ ¬ s.isRegular = true := by
  intro map struct
  have hc : ((parse? map).bind Constant.decode?).any (!·.isRegular) = true := by decide +kernel
  have hs : ((parse? struct).bind Schema.decode?).any (!·.isRegular) = true := by decide +kernel
  rw [Option.any_eq_true] at hc hs
  obtain ⟨c, hc, hirregular⟩ := hc
  obtain ⟨s, hs, hirregular'⟩ := hs
  exact ⟨⟨c, hc, by simpa using hirregular⟩, ⟨s, hs, by simpa using hirregular'⟩⟩

section Derived

open Idl

namespace Constant

/- A value is regular if each map in it is by its own keys. -/
mutual

theorem isRegular_of_parts (v : Constant)
    (h : ∀ pairs, map pairs ∈ v.parts → keysDiffer (pairs.map (·.1)) = true) :
    v.isRegular = true := by
  match v with
  | bool _ | number _ | string _ | identifier _ | null => rfl
  | list items =>
    exact itemsRegular_of_parts items fun pairs hp => h pairs (List.mem_cons_of_mem _ hp)
  | map pairs =>
    rw [isRegular, h pairs List.mem_cons_self, Bool.true_and]
    exact pairsRegular_of_parts pairs fun inner hp => h inner (List.mem_cons_of_mem _ hp)

theorem itemsRegular_of_parts (items : List Constant)
    (h : ∀ pairs, map pairs ∈ itemParts items → keysDiffer (pairs.map (·.1)) = true) :
    itemsRegular items = true := by
  match items with
  | [] => rfl
  | item :: items =>
    simp only [itemParts, List.mem_append, or_imp, forall_and] at h
    rw [itemsRegular, isRegular_of_parts item h.1, itemsRegular_of_parts items h.2]
    rfl

theorem pairsRegular_of_parts (pairs : List (Constant × Constant))
    (h : ∀ inner, map inner ∈ pairParts pairs → keysDiffer (inner.map (·.1)) = true) :
    pairsRegular pairs = true := by
  match pairs with
  | [] => rfl
  | (key, value) :: pairs =>
    simp only [pairParts, List.mem_append, or_imp, forall_and] at h
    rw [pairsRegular, isRegular_of_parts key h.1.1, isRegular_of_parts value h.1.2,
      pairsRegular_of_parts pairs h.2]
    rfl

end

end Constant

theorem Idl.ConstExpr.isRegular_value (e : ConstExpr) : e.value.isRegular = true := by
  refine e.value.isRegular_of_parts fun pairs hp => ?_
  obtain ⟨f, hf⟩ := exists_value_of_mem_parts e _ hp
  exact decide_eq_true (List.pairwise_map.mpr (pairwise_of_value_eq_map hf))

theorem isRegular_schemaOf (t : FieldType) : (schemaOf t).isRegular = true := by
  induction t with
  | base b => cases b <;> rfl
  | named name => rfl
  | list t ih | set t ih => exact ih
  | map k v ihk ihv => rw [schemaOf, SchemaType.isRegular, ihk, ihv, Bool.and_self]

theorem isRegular_fieldSchema (options : Options) (f : FieldDef) :
    (Session.fieldSchema options f).isRegular = true := by
  have h := isRegular_schemaOf f.type
  unfold Session.fieldSchema
  split
  · next e _ => rw [SchemaType.isRegular, h, e.isRegular_value, Bool.and_self]
  · split <;> exact h

theorem isRegular_structOf (options : Options) (b : StructDef) :
    (structOf options b).isRegular = true := by
  obtain ⟨-, -, hsource⟩ := structOf_eq options b
  rw [Schema.isRegular, Schema.toType, SchemaType.isRegular, SchemaType.fieldsRegular_eq_all,
    List.all_eq_true]
  intro e he
  obtain ⟨f, -, rfl⟩ := hsource e he
  obtain ⟨hname, htype, -⟩ := fieldOf_eq options f
  rw [hname, htype, isRegular_fieldSchema, beq_self_eq_true, Bool.and_self]

/-- Whatever is derived from a text is regular: what the reader lets through is the only way to a
struct that is not. -/
theorem isRegular_of_deriveSource {options : Options} {source : String} {derived : Derived}
    (h : deriveSource options source = .ok derived) :
    ∀ s ∈ derived.structs, s.isRegular = true := by
  obtain ⟨d, -, rfl⟩ := parse_of_deriveSource h
  intro s hs
  obtain ⟨b, -, -, rfl⟩ := mem_structs hs
  exact isRegular_structOf options b

end Derived
end SchemaGen
