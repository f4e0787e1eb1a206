import SchemaGen.Proofs.Derive.Concatenation
import SchemaGen.Proofs.Derive.Height
import SchemaGen.Proofs.Emit.CallText
import SchemaGen.Proofs.Schema.Alignment
import SchemaGen.Proofs.Schema.Numbers

namespace SchemaGen

open Idl Json Numeric

namespace Schema

/-- A struct that was written to JSON, as it is read back. -/
def reload? (s : Schema) : Option Schema := (parse? s.encode.print).bind Schema.decode?

/-- The properties that the fields are printed as. -/
def lines (p : String) (s : Schema) : List String :=
  s.fields.map fun e => e.2.type.renderNamed p e.2.name

/-- The struct comes back with its name and its keys, and its fields are printed as before. -/
def Reloads (s : Schema) : Prop :=
  ∃ r, s.reload? = some r ∧ r.name = s.name ∧ r.keys = s.keys ∧ ∀ p, r.lines p = s.lines p

end Schema

theorem Idl.FieldType.schemaOf_eq (t : FieldType) :
    (schemaOf t).numbers = [] ∧ (schemaOf t).isKeyed = true := by
  induction t with
  | base b => cases b <;> exact ⟨rfl, rfl⟩
  | named name => exact ⟨rfl, rfl⟩
  | list t ih | set t ih => exact ih
  | map k v ihk ihv =>
    rw [schemaOf, SchemaType.numbers, SchemaType.isKeyed, ihk.1, ihk.2, ihv.1, ihv.2]
    exact ⟨rfl, rfl⟩

theorem isKeyed_fieldSchema (options : Options) (f : FieldDef) :
    (Session.fieldSchema options f).isKeyed = true := by
  have h := f.type.schemaOf_eq.2
  unfold Session.fieldSchema
  split
  · exact h
  · split <;> exact h

theorem isKeyed_structOf (options : Options) (d : StructDef) :
    (structOf options d).isKeyed = true := by
  obtain ⟨-, hnodup, hsource⟩ := structOf_eq options d
  rw [Schema.isKeyed, Schema.toType, SchemaType.isKeyed, SchemaType.fieldsKeyed_eq_all,
    Bool.and_eq_true, List.all_eq_true]
  refine ⟨decide_eq_true hnodup, fun e he => ?_⟩
  obtain ⟨f, -, rfl⟩ := hsource e he
  obtain ⟨-, htype, hnodup⟩ := fieldOf_eq options f
  rw [FieldOf.isKeyed, htype, isKeyed_fieldSchema, decide_eq_true hnodup, Bool.true_and]

section Texts

variable {f : Binary64 → Option Binary64}

theorem Aligned.eq_iff {ns : List Binary64} {s t : String} (h : Aligned f ns s.toList t.toList) :
    s = t ↔ ∀ n ∈ ns, KeepsText f n := by
  have hnil : EndsText [] := by simp [EndsText, Idl.Stops]
  have he := h hnil hnil
  rwa [List.append_nil, List.append_nil, String.toList_inj, and_iff_left rfl] at he

theorem quote_inj {s t : String} : Text.quote s = Text.quote t ↔ s = t := by
  refine ⟨fun h => ?_, congrArg Text.quote⟩
  exact (CallTree.quote_unique (x := []) (y := []) (by rw [h])).1

theorem defaultText_eq_iff (inner : SchemaType) {v w : Constant}
    (h : v.mapNumbers? f = some w) :
    inner.defaultText w = inner.defaultText v ↔ ∀ n ∈ v.numbers, KeepsText f n := by
  obtain ⟨hl, ht⟩ := Constant.alike_of_mapNumbers? v h
  have hliteral := hl.eq_iff
  have htext : Text.quote w.text = Text.quote v.text ↔ ∀ n ∈ v.numbers, KeepsText f n :=
    quote_inj.trans ht.eq_iff
  cases inner with
  | string => exact htext
  | number | boolean =>
    cases v with
    | number n =>
      obtain ⟨m, hm, rfl⟩ := Option.map_eq_some_iff.mp h
      exact hliteral
    | bool b | string s | identifier s | null =>
      cases h
      exact hliteral
    | list items | map pairs =>
      obtain ⟨_, _, rfl⟩ := Option.map_eq_some_iff.mp h
      exact hliteral
  | _ => exact hliteral

theorem renderNamed_inj {p name : String} {t u : SchemaType} :
    t.renderNamed p name = u.renderNamed p name ↔ t.render p = u.render p := by
  simp only [SchemaType.renderNamed, String.append_right_inj]

/-- Only the default of a derived field holds numbers. -/
theorem render_fieldSchema_iff (options : Options) (d : FieldDef) {t : SchemaType}
    (h : (Session.fieldSchema options d).mapNumbers? f = some t) (p : String) :
    t.render p = (Session.fieldSchema options d).render p ↔
      ∀ n ∈ (Session.fieldSchema options d).numbers, KeepsText f n := by
  have hnumbers := d.type.schemaOf_eq.1
  have hsame {u : SchemaType} (hu : u.numbers = []) (h : u.mapNumbers? f = some t) :
      t.render p = u.render p ↔ ∀ n ∈ u.numbers, KeepsText f n := by
    rw [u.mapNumbers?_self (by simp [hu]), Option.some.injEq] at h
    subst h
    simp [hu]
  cases hd : d.default with
  | none =>
    have hfield : (Session.fieldSchema options d).numbers = [] := by
      unfold Session.fieldSchema
      rw [hd]
      dsimp only
      split <;> exact hnumbers
    exact hsame hfield h
  | some e =>
    have hfield : Session.fieldSchema options d = .default (schemaOf d.type) e.value := by
      rw [Session.fieldSchema, hd]
    have hinner := (schemaOf d.type).mapNumbers?_self (f := f) (by simp [hnumbers])
    rw [hfield, SchemaType.mapNumbers?, hinner] at h
    obtain ⟨w, hw, rfl⟩ := Option.map_eq_some_iff.mp
      (show (e.value.mapNumbers? f).map (.default (schemaOf d.type)) = some t by
        cases hv : e.value.mapNumbers? f <;> simp_all)
    rw [hfield, SchemaType.render, SchemaType.render, SchemaType.numbers, hnumbers,
      List.nil_append, ← defaultText_eq_iff (schemaOf d.type) hw]
    simp only [String.append_left_inj, String.append_right_inj]

theorem lines_iff (options : Options) {fields gs : List (String × Field)}
    (h : SchemaType.mapFields? f fields = some gs)
    (hd : ∀ e ∈ fields, ∃ d, e.2.type = Session.fieldSchema options d) (p : String) :
    gs.map (fun e => e.2.type.renderNamed p e.2.name) =
        fields.map (fun e => e.2.type.renderNamed p e.2.name) ↔
      ∀ n ∈ SchemaType.fieldNumbers fields, KeepsText f n := by
  induction fields generalizing gs with
  | nil =>
    cases h
    simp [SchemaType.fieldNumbers]
  | cons e fields ih =>
    obtain ⟨key, name, type, notes⟩ := e
    rw [List.forall_mem_cons] at hd
    obtain ⟨⟨d, rfl⟩, hd⟩ := hd
    obtain ⟨t, ht, hs, hrest, rfl⟩ := SchemaType.mapFields?_cons h
    rw [List.map_cons, List.map_cons, List.cons.injEq, renderNamed_inj,
      render_fieldSchema_iff options d ht p, ih hrest hd, SchemaType.fieldNumbers,
      List.forall_mem_append]

end Texts

theorem Schema.reload?_eq {s : Schema} (hk : s.isKeyed = true)
    (h : s.encode.height ≤ depthLimit) : s.reload? = s.mapNumbers? rereadNumber? := by
  rw [reload?, parse?_print, Option.bind_some, Schema.decode?_encode hk h]

theorem Schema.reload?_structOf (options : Options) {b : StructDef}
    (h : ∀ f ∈ b.fields, f.nesting ≤ 20) :
    (structOf options b).reload? = (structOf options b).mapNumbers? rereadNumber? := by
  have hheight : (structOf options b).encode.height ≤ depthLimit :=
    Nat.le_trans (height_structOf options h) (by decide)
  exact Schema.reload?_eq (isKeyed_structOf options b) hheight

/-- One number that is not finite among its defaults keeps a struct from coming back. -/
theorem not_reloads_of_not_finite (options : Options) {b : StructDef}
    (h : ∀ f ∈ b.fields, f.nesting ≤ 20) {n : Binary64} (hn : n ∈ (structOf options b).numbers)
    (hf : n.isFinite = false) : ¬ (structOf options b).Reloads := by
  rintro ⟨r, hr, -⟩
  have hsome : ((structOf options b).mapNumbers? rereadNumber?).isSome = true := by
    rw [← Schema.reload?_structOf options h, hr]
    rfl
  rw [Schema.mapNumbers?_isSome, List.all_eq_true] at hsome
  have hreread := hsome n hn
  rw [rereadNumber?_of_not_finite hf] at hreread
  cases hreread

/-- Whatever is derived from a text with types and constants nested at most twenty levels deep, a
struct comes back from its JSON with its name, its keys and the text of every field exactly if each
number in a default is read back as one with the same text. -/
theorem reloads_iff {source : String} {d : Document} (hp : Idl.parse source = .ok d)
    (hn : ∀ b, .struct b ∈ d.definitions → ∀ f ∈ b.fields, f.nesting ≤ 20) (options : Options)
    {derived : Derived} (hd : deriveSource options source = .ok derived) :
    ∀ s ∈ derived.structs,
      s.Reloads ↔ ∀ n ∈ s.numbers, (rereadNumber? n).map Binary64.text = some n.text := by
  intro s hs
  rw [deriveSource_of_parse hp] at hd
  cases hd
  obtain ⟨b, hb, -, rfl⟩ := mem_structs hs
  have hreload := Schema.reload?_structOf options (hn b hb)
  have hsource : ∀ e ∈ (structOf options b).fields,
      ∃ d, e.2.type = Session.fieldSchema options d := by
    intro e he
    obtain ⟨f, -, rfl⟩ := (structOf_eq options b).2.2 e he
    exact ⟨f, (fieldOf_eq options f).2.1⟩
  constructor
  · rintro ⟨r, hr, -, -, hlines⟩
    rw [hreload] at hr
    obtain ⟨gs, hgs, rfl⟩ := Option.map_eq_some_iff.mp hr
    exact (lines_iff options hgs hsource "").mp (hlines "")
  · intro hkeep
    have hsome :
        (SchemaType.mapFields? rereadNumber? (structOf options b).fields).isSome = true := by
      rw [SchemaType.mapFields?_isSome, List.all_eq_true]
      intro n hmem
      have hn := hkeep n hmem
      cases hr : rereadNumber? n with
      | none => simp [hr] at hn
      | some m => rfl
    obtain ⟨gs, hgs⟩ := Option.isSome_iff_exists.mp hsome
    refine ⟨{ structOf options b with fields := gs }, ?_, rfl, SchemaType.keys_mapFields? hgs,
      fun p => (lines_iff options hgs hsource p).mpr hkeep⟩
    rw [hreload, Schema.mapNumbers?, hgs]
    rfl

/-- A whole number is read back as it was written. -/
theorem reloads_number :
    ∃ derived, deriveSource {} "struct S\x7b1:i32 x=3\x7d" = .ok derived ∧
      derived.structs ≠ [] ∧ ∀ s ∈ derived.structs, s.Reloads := by
  have htest : (Idl.parse "struct S\x7b1:i32 x=3\x7d").toOption.any (fun d =>
      d.isWithin 20 && !(deriveDocument {} d).structs.isEmpty &&
        (deriveDocument {} d).structs.all fun s => s.numbers.all fun n =>
          (rereadNumber? n).map Binary64.text == some n.text) = true := by decide +kernel
  obtain ⟨d, hp, hd⟩ := exists_parsed htest
  rw [Bool.and_eq_true, Bool.and_eq_true, Bool.not_eq_true', List.all_eq_true] at hd
  obtain ⟨⟨hwithin, hne⟩, hkeep⟩ := hd
  have hderived := deriveSource_of_parse hp {}
  refine ⟨_, hderived, List.isEmpty_eq_false_iff.mp hne, fun s hs => ?_⟩
  have hnumbers := List.all_eq_true.mp (hkeep s hs)
  exact (reloads_iff hp (Document.nesting_le hwithin) {} hderived s hs).mpr fun n hn =>
    beq_iff_eq.mp (hnumbers n hn)

/-- A text that denotes no number is stored as nothing, which is no number to the reader. -/
theorem not_reloads_string :
    ∃ d derived, Idl.parse "struct S\x7b1:string x='abc'\x7d" = .ok d ∧
      (∀ b, .struct b ∈ d.definitions → ∀ f ∈ b.fields, f.nesting ≤ 20) ∧
      deriveSource {} "struct S\x7b1:string x='abc'\x7d" = .ok derived ∧
      ∃ s ∈ derived.structs, ¬ s.Reloads := by
  have htest : (Idl.parse "struct S\x7b1:string x='abc'\x7d").toOption.any (fun d =>
      d.isWithin 20 && (deriveDocument {} d).structs.any fun s =>
        s.numbers.any fun n => !n.isFinite) = true := by decide +kernel
  obtain ⟨d, hp, hd⟩ := exists_parsed htest
  obtain ⟨hwithin, hany⟩ := Bool.and_eq_true_iff.mp hd
  obtain ⟨s, hs, hnumbers⟩ := List.any_eq_true.mp hany
  obtain ⟨n, hn, hf⟩ := List.any_eq_true.mp hnumbers
  obtain ⟨b, hb, -, rfl⟩ := mem_structs hs
  have hnest := Document.nesting_le hwithin
  refine ⟨d, _, hp, hnest, deriveSource_of_parse hp {}, _, hs, ?_⟩
  exact not_reloads_of_not_finite {} (hnest b hb) hn (by simpa using hf)

end SchemaGen
