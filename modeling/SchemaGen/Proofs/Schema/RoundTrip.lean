import SchemaGen.Proofs.Schema.Numbers
import SchemaGen.Proofs.Schema.Reload

namespace SchemaGen

open Json Numeric

theorem rereadNumber?_finite (negative : Bool) (m : Fin finiteCount) :
    rereadNumber? (.finite negative m) =
      asNumber? (readNumber (signed negative (magnitudeText m))) := by
  rw [rereadNumber?_eq, ofNumberValue, Binary64.isFinite, if_pos rfl, reread, numberText_finite]

theorem bind_parse?_print {α : Type} (decode : Json → Option α) (j : Json) :
    (parse? j.print).bind decode = decode (reread j) := by
  rw [parse?_print, Option.bind_some]

/-- Constants, types, fields and structs come back from their JSON texts as they were, if no more
containers stand inside one another than are read, every table has each key once, and every number
comes back as itself. A field without annotations has no member for them. -/
theorem decode?_print_encode :
    (∀ c : Constant, c.encode.height ≤ depthLimit →
      (∀ n ∈ c.numbers, rereadNumber? n = some n) →
        (parse? c.encode.print).bind Constant.decode? = some c) ∧
    (∀ t : SchemaType, t.isKeyed = true → t.encode.height ≤ depthLimit →
      (∀ n ∈ t.numbers, rereadNumber? n = some n) →
        (parse? t.encode.print).bind SchemaType.decode? = some t) ∧
    (∀ f : Field, f.isKeyed = true → f.encode.height ≤ depthLimit →
      (∀ n ∈ f.numbers, rereadNumber? n = some n) →
        (parse? f.encode.print).bind FieldOf.decode? = some f ∧
          ∃ members, f.encode = .object members ∧
            ("annotations" ∈ Table.keys members ↔ f.annotations ≠ [])) ∧
    (∀ s : Schema, s.isKeyed = true → s.encode.height ≤ depthLimit →
      (∀ n ∈ s.numbers, rereadNumber? n = some n) →
        (parse? s.encode.print).bind Schema.decode? = some s) := by
  refine ⟨fun c hd hn => ?constant, fun t hk hd hn => ?type, fun f hk hd hn => ?field,
    fun s hk hd hn => ?struct⟩
  case constant =>
    rw [bind_parse?_print, Constant.decode?, Constant.decodeUpTo_encode c hd,
      c.mapNumbers?_self hn]
  case type =>
    rw [bind_parse?_print, SchemaType.decode?, SchemaType.decodeUpTo_encode t hk hd,
      t.mapNumbers?_self hn]
  case field =>
    refine ⟨?_, _, rfl, ?_⟩
    · rw [bind_parse?_print, FieldOf.decode?, FieldOf.decodeUpTo_encode hk hd,
        FieldOf.mapNumbers?, f.type.mapNumbers?_self hn]
      rfl
    · cases f.annotations <;> simp [fieldMembers, Table.keys]
  case struct =>
    rw [bind_parse?_print, Schema.decode?_encode hk hd, Schema.mapNumbers?,
      SchemaType.mapFields?_self s.fields hn]
    rfl

theorem rereadNumber?_three : rereadNumber? (.ofNat 3) = some (.ofNat 3) := by
  have h : Binary64.ofNat 3 = .finite false ⟨4613937818241073152, by decide⟩ := by decide +kernel
  rw [h, rereadNumber?_finite]
  decide +kernel

/-- A map, a number with it for a default, a field with a note and a struct around it. -/
theorem decode?_print_encode_default :
    let c : Constant := .map [(.string "a\"b", .number (.ofNat 3)), (.null, .list [.bool true])]
    let t : SchemaType := .object [("x", ⟨"y", .default .number c, []⟩)]
    let f : Field := ⟨"n", .union [.array t, .optional .string], [("doc", "text")]⟩
    let s : Schema := ⟨"S", [("n", f), ("m", ⟨"m", .map .string .any, []⟩)]⟩
    (parse? c.encode.print).bind Constant.decode? = some c ∧
      (parse? t.encode.print).bind SchemaType.decode? = some t ∧
      (parse? f.encode.print).bind FieldOf.decode? = some f ∧
      (parse? s.encode.print).bind Schema.decode? = some s := by
  intro c t f s
  have hn : ∀ n ∈ [Binary64.ofNat 3], rereadNumber? n = some n := by
    simpa using rereadNumber?_three
  obtain ⟨hc, ht, hf, hs⟩ := decode?_print_encode
  exact ⟨hc c (by decide +kernel) hn, ht t (by decide +kernel) (by decide +kernel) hn,
    (hf f (by decide +kernel) (by decide +kernel) hn).1,
    hs s (by decide +kernel) (by decide +kernel) hn⟩

end SchemaGen
