import SchemaGen.Proofs.Json.PrintedText
import SchemaGen.Proofs.Schema.Numbers
import SchemaGen.Proofs.Schema.Table
import SchemaGen.Schema.Contents
import SchemaGen.Schema.Decode

namespace SchemaGen

open Json Numeric

theorem rereadNumber?_eq (n : Binary64) :
    rereadNumber? n = asNumber? (reread (ofNumberValue n)) := by
  rw [rereadNumber?, parse?_print, Option.bind_some]

/-- What is not finite is written as nothing and does not come back. -/
theorem rereadNumber?_of_not_finite {n : Binary64} (h : n.isFinite = false) :
    rereadNumber? n = none := by
  rw [rereadNumber?_eq, ofNumberValue, if_neg (by simp [h])]
  rfl

theorem reread_variant (key name : String) (content : Option Json) :
    reread (.variant key name content) = .variant key name (content.map reread) := by
  cases content <;> rfl

theorem height_variant (key name : String) (content : Json) :
    (Json.variant key name (some content)).height = content.height + 1 := by
  simp [variant, height, membersHeight]

theorem variant?_variant {key : String} (hk : key ≠ "value") (names : List String)
    (origin : Origin) (depth : Nat) (name : String) (content : Option Json) :
    variant? key names origin depth (.variant key name content) =
      some ⟨name, content, origin⟩ := by
  cases content with
  | none => simp [variant, variant?, relevant, variantName?]
  | some content => simp [variant, variant?, relevant, variantName?, hk]

theorem variant_height_pos (key name : String) (content : Option Json) :
    0 < (Json.variant key name content).height := by
  cases content with
  | none => exact Nat.succ_pos _
  | some content => rw [height_variant]; exact Nat.succ_pos _

namespace Constant

variable {origin : Origin}

theorem encode_height_pos (v : Constant) : 0 < v.encode.height := by
  cases v <;> rw [encode] <;> exact variant_height_pos _ _ _

theorem decodeUpTo_variant (depth : Nat) (name : String) (content : Option Json) :
    variant? "kind" tags origin depth (.variant "kind" name content) =
      some ⟨name, content, origin⟩ :=
  variant?_variant (by decide) tags origin depth name content

/-- A pair of a map within a depth. -/
def pairUpTo (origin : Origin) (depth : Nat) : Json → Option (Constant × Constant)
  | .array [key, value] =>
    match depth with
    | 0 => none
    | depth + 1 => do pure (← decodeUpTo origin depth key, ← decodeUpTo origin depth value)
  | _ => none

mutual

theorem decodeUpTo_encode (v : Constant) {depth : Nat} (h : v.encode.height ≤ depth) :
    decodeUpTo origin depth (reread v.encode) = v.mapNumbers? rereadNumber? := by
  obtain ⟨d, rfl⟩ : ∃ d, depth = d + 1 :=
    Nat.exists_eq_succ_of_ne_zero (by have := encode_height_pos v; omega)
  match v with
  | bool b | string s | identifier name | null =>
    rw [encode, reread_variant, decodeUpTo, decodeUpTo_variant]
    rfl
  | number n =>
    rw [encode, reread_variant, decodeUpTo, decodeUpTo_variant, mapNumbers?, rereadNumber?_eq,
      Option.map_some]
    cases reread (ofNumberValue n) <;> rfl
  | list items =>
    rw [encode, height_variant, height] at h
    obtain ⟨e, rfl⟩ : ∃ e, d = e + 1 := ⟨d - 1, by omega⟩
    rw [encode, reread_variant, decodeUpTo, decodeUpTo_variant, mapNumbers?,
      ← decodeUpTo_encodeItems items (Nat.le_of_succ_le_succ (Nat.le_of_succ_le_succ h))]
    rfl
  | map pairs =>
    rw [encode, height_variant, height] at h
    obtain ⟨e, rfl⟩ : ∃ e, d = e + 1 := ⟨d - 1, by omega⟩
    rw [encode, reread_variant, decodeUpTo, decodeUpTo_variant, mapNumbers?,
      ← decodeUpTo_encodePairs pairs (Nat.le_of_succ_le_succ (Nat.le_of_succ_le_succ h))]
    rfl

theorem decodeUpTo_encodeItems (items : List Constant) {depth : Nat}
    (h : itemsHeight (encodeItems items) ≤ depth) :
    (rereadItems (encodeItems items)).mapM (decodeUpTo origin depth) =
      mapItems? rereadNumber? items := by
  match items with
  | [] => rfl
  | item :: rest =>
    rw [encodeItems, itemsHeight] at h
    rw [encodeItems, rereadItems, List.mapM_cons, mapItems?, decodeUpTo_encode item (by omega),
      decodeUpTo_encodeItems rest (by omega)]

theorem decodeUpTo_encodePairs (pairs : List (Constant × Constant)) {depth : Nat}
    (h : itemsHeight (encodePairs pairs) ≤ depth) :
    (rereadItems (encodePairs pairs)).mapM (pairUpTo origin depth) =
      mapPairs? rereadNumber? pairs := by
  match pairs with
  | [] => rfl
  | (key, value) :: rest =>
    rw [encodePairs, itemsHeight, height, itemsHeight, itemsHeight, itemsHeight] at h
    obtain ⟨d, rfl⟩ : ∃ d, depth = d + 1 := ⟨depth - 1, by omega⟩
    rw [encodePairs, rereadItems, List.mapM_cons, decodeUpTo_encodePairs rest (by omega), reread,
      rereadItems, rereadItems, rereadItems, pairUpTo, decodeUpTo_encode key (by omega),
      decodeUpTo_encode value (by omega), mapPairs?]
    cases key.mapNumbers? rereadNumber? <;> cases value.mapNumbers? rereadNumber? <;> rfl

end

end Constant

theorem mapM_text (notes : List (String × String)) :
    (rereadMembers (notes.map fun a => (a.1, .string a.2))).mapM
        (fun m => (text? m.2).map (m.1, ·)) = some notes := by
  induction notes with
  | nil => rfl
  | cons a notes ih =>
    rw [List.map_cons, rereadMembers, List.mapM_cons, ih]
    rfl

namespace SchemaType

variable {origin : Origin}

theorem encode_height_pos (t : SchemaType) : 0 < t.encode.height := by
  cases t <;> rw [encode] <;> exact variant_height_pos _ _ _

theorem decodeUpTo_variant (depth : Nat) (name : String) (content : Option Json) :
    variant? "type" tags origin depth (.variant "type" name content) =
      some ⟨name, content, origin⟩ :=
  variant?_variant (by decide) tags origin depth name content

theorem fieldParts?_members (name : String) (type : Json) (notes : List (String × String)) :
    fieldParts? (reread (.object (fieldMembers name type notes))) =
      some (.string name, reread type,
        if notes.isEmpty then none
        else some (.object (rereadMembers (notes.map fun a => (a.1, .string a.2))))) := by
  cases notes with
  | nil => rfl
  | cons a notes => rfl

theorem fieldWith?_members {depth : Nat} {type : Json → Option SchemaType} (name : String)
    (t : Json) {notes : List (String × String)} (hn : (Table.keys notes).Nodup)
    (h : (Json.object (fieldMembers name t notes)).height ≤ depth + 1) :
    fieldWith? type depth (reread (.object (fieldMembers name t notes))) =
      (type (reread t)).map fun t => ⟨name, t, notes⟩ := by
  rw [fieldWith?, fieldParts?_members]
  cases notes with
  | nil =>
    simp only [List.isEmpty_nil, if_true, text?, Option.bind_eq_bind, Option.bind_some]
    cases type (reread t) <;> rfl
  | cons a notes =>
    have hd : depth ≠ 0 := by
      rintro rfl
      simp [fieldMembers, height, membersHeight] at h
    have htexts : texts? (.object (rereadMembers ((a :: notes).map fun a => (a.1, .string a.2)))) =
        some (a :: notes) := by
      rw [texts?, mapM_text]
      simp [Table.ofEntries_of_nodup hn]
    have hne : (a :: notes).isEmpty = false := rfl
    simp only [hne, Bool.false_eq_true, if_false, if_neg hd, htexts, text?, Option.bind_eq_bind,
      Option.bind_some]
    cases type (reread t) <;> rfl

theorem fieldsWith?_of_mapM {field : Json → Option Field} {f : Binary64 → Option Binary64}
    {members : List (String × Json)} {fields : List (String × Field)}
    (hn : (Table.keys fields).Nodup)
    (h : members.mapM (fun m => (field m.2).map (m.1, ·)) = mapFields? f fields) :
    fieldsWith? field (.object members) = mapFields? f fields := by
  rw [fieldsWith?, h]
  cases hm : mapFields? f fields with
  | none => rfl
  | some gs =>
    have hgs : (Table.keys gs).Nodup := by rwa [keys_mapFields? hm]
    simp [Table.ofEntries_of_nodup hgs]

/-- A field within a depth, read where the whole type is. -/
def fieldUpTo (origin : Origin) (depth : Nat) (j : Json) : Option Field :=
  match depth with
  | 0 => none
  | depth + 1 => fieldWith? (decodeUpTo origin depth) depth j

mutual

theorem decodeUpTo_encode (t : SchemaType) {depth : Nat} (hk : t.isKeyed = true)
    (h : t.encode.height ≤ depth) :
    decodeUpTo origin depth (reread t.encode) = t.mapNumbers? rereadNumber? := by
  obtain ⟨d, rfl⟩ : ∃ d, depth = d + 1 :=
    Nat.exists_eq_succ_of_ne_zero (by have := encode_height_pos t; omega)
  match t with
  | string | number | boolean | void | any | unknown =>
    rw [encode, reread_variant, decodeUpTo, decodeUpTo_variant]
    rfl
  | array t | set t | optional t =>
    rw [encode, height_variant] at h
    rw [isKeyed] at hk
    rw [encode, reread_variant, decodeUpTo, decodeUpTo_variant, mapNumbers?,
      ← decodeUpTo_encode t hk (Nat.le_of_succ_le_succ h)]
    rfl
  | map k v =>
    rw [encode, height_variant, height, membersHeight, membersHeight, membersHeight] at h
    rw [isKeyed, Bool.and_eq_true] at hk
    obtain ⟨e, rfl⟩ : ∃ e, d = e + 1 := ⟨d - 1, by omega⟩
    rw [encode, reread_variant, decodeUpTo, decodeUpTo_variant, mapNumbers?,
      ← decodeUpTo_encode k hk.1 (show _ ≤ e by omega),
      ← decodeUpTo_encode v hk.2 (show _ ≤ e by omega)]
    rfl
  | default inner value =>
    rw [encode, height_variant, height, membersHeight, membersHeight, membersHeight] at h
    rw [isKeyed] at hk
    obtain ⟨e, rfl⟩ : ∃ e, d = e + 1 := ⟨d - 1, by omega⟩
    rw [encode, reread_variant, decodeUpTo, decodeUpTo_variant, mapNumbers?,
      ← decodeUpTo_encode inner hk (show _ ≤ e by omega),
      ← Constant.decodeUpTo_encode value (show _ ≤ e by omega)]
    rfl
  | union members =>
    rw [encode, height_variant, height] at h
    rw [isKeyed] at hk
    obtain ⟨e, rfl⟩ : ∃ e, d = e + 1 := ⟨d - 1, by omega⟩
    rw [encode, reread_variant, decodeUpTo, decodeUpTo_variant, mapNumbers?,
      ← mapM_encodeMembers members hk (show _ ≤ e by omega)]
    rfl
  | object fields =>
    rw [encode, height_variant, height] at h
    rw [isKeyed, Bool.and_eq_true, decide_eq_true_eq] at hk
    obtain ⟨e, rfl⟩ : ∃ e, d = e + 1 := ⟨d - 1, by omega⟩
    rw [encode, reread_variant, decodeUpTo, decodeUpTo_variant, mapNumbers?,
      ← fieldsWith?_of_mapM hk.1 (mapM_encodeFields fields hk.2 (show _ ≤ e by omega))]
    rfl

theorem mapM_encodeMembers (members : List SchemaType) {depth : Nat}
    (hk : membersKeyed members = true) (h : itemsHeight (encodeMembers members) ≤ depth) :
    (rereadItems (encodeMembers members)).mapM (decodeUpTo origin depth) =
      mapMembers? rereadNumber? members := by
  match members with
  | [] => rfl
  | m :: rest =>
    rw [encodeMembers, itemsHeight] at h
    rw [membersKeyed, Bool.and_eq_true] at hk
    rw [encodeMembers, rereadItems, List.mapM_cons, mapMembers?,
      decodeUpTo_encode m hk.1 (by omega), mapM_encodeMembers rest hk.2 (by omega)]

theorem mapM_encodeFields (fields : List (String × Field)) {depth : Nat}
    (hk : fieldsKeyed fields = true) (h : membersHeight (encodeFields fields) ≤ depth) :
    (rereadMembers (encodeFields fields)).mapM
        (fun m => (fieldUpTo origin depth m.2).map (m.1, ·)) =
      mapFields? rereadNumber? fields := by
  match fields with
  | [] => rfl
  | (key, ⟨name, type, notes⟩) :: rest =>
    rw [encodeFields, membersHeight] at h
    rw [fieldsKeyed, Bool.and_eq_true, Bool.and_eq_true, decide_eq_true_eq] at hk
    obtain ⟨d, rfl⟩ : ∃ d, depth = d + 1 := ⟨depth - 1, by rw [height] at h; omega⟩
    have htype : type.encode.height ≤ d := by
      simp [fieldMembers, height, membersHeight] at h
      omega
    rw [encodeFields, rereadMembers, List.mapM_cons, mapM_encodeFields rest hk.2 (by omega),
      mapFields?, fieldUpTo, fieldWith?_members name _ hk.1.2 (by omega),
      decodeUpTo_encode type hk.1.1 htype]
    cases type.mapNumbers? rereadNumber? <;> rfl

end

end SchemaType

theorem FieldOf.decodeUpTo_eq (depth : Nat) :
    FieldOf.decodeUpTo depth = SchemaType.fieldUpTo .direct depth := by
  funext j
  cases depth <;> rfl

theorem FieldOf.height_encode (f : Field) : f.encode.height = f.type.encode.height + 1 := by
  have hpos := f.type.encode_height_pos
  have hnotes : membersHeight (f.annotations.map fun a => (a.1, .string a.2)) = 0 := by
    induction f.annotations with
    | nil => rfl
    | cons a notes ih => rw [List.map_cons, membersHeight, ih, height, Nat.max_self]
  cases hn : f.annotations with
  | nil => simp [encode, fieldMembers, height, membersHeight, hn]
  | cons a notes =>
    rw [hn] at hnotes
    simp only [encode, fieldMembers, height, hn, List.cons_append, List.nil_append,
      List.isEmpty_cons, Bool.false_eq_true, if_false, membersHeight, hnotes]
    omega

theorem FieldOf.decodeUpTo_encode {f : Field} {depth : Nat} (hk : f.isKeyed = true)
    (h : f.encode.height ≤ depth) :
    FieldOf.decodeUpTo depth (reread f.encode) = f.mapNumbers? rereadNumber? := by
  have htype := f.height_encode
  obtain ⟨d, rfl⟩ : ∃ d, depth = d + 1 := ⟨depth - 1, by omega⟩
  rw [isKeyed, Bool.and_eq_true, decide_eq_true_eq] at hk
  rw [encode, decodeUpTo, SchemaType.fieldWith?_members f.name _ hk.2 h,
    SchemaType.decodeUpTo_encode f.type hk.1 (by omega), mapNumbers?]
  cases f.type.mapNumbers? rereadNumber? <;> rfl

theorem Schema.decode?_encode {s : Schema} (hk : s.isKeyed = true)
    (h : s.encode.height ≤ depthLimit) :
    Schema.decode? (reread s.encode) = s.mapNumbers? rereadNumber? := by
  have hfields : membersHeight (SchemaType.encodeFields s.fields) ≤ depthLimit - 2 := by
    simp [encode, height, membersHeight] at h
    omega
  rw [isKeyed, toType, SchemaType.isKeyed, Bool.and_eq_true, decide_eq_true_eq] at hk
  have hparts : structParts? (reread s.encode) =
      some (.string s.name, .object (rereadMembers (SchemaType.encodeFields s.fields))) := rfl
  rw [decode?, hparts, FieldOf.decodeUpTo_eq, Option.bind_eq_bind, Option.bind_some]
  simp only [text?, Option.bind_eq_bind, Option.bind_some]
  rw [SchemaType.fieldsWith?_of_mapM hk.1 (SchemaType.mapM_encodeFields s.fields hk.2 hfields),
    mapNumbers?]
  cases SchemaType.mapFields? rereadNumber? s.fields <;> rfl

end SchemaGen
