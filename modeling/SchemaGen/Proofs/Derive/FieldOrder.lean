import SchemaGen.Proofs.Derive.Structs

namespace SchemaGen

open Idl

/-- A call that sets a field. Only an insertion gives back the field that it replaces. -/
inductive FieldCall where
  | insert (field : Field)
  | withField (field : Field)

namespace FieldCall

def field : FieldCall → Field
  | insert f | withField f => f

/-- What a call gives back, and the schema after it. -/
def run (s : Schema) : FieldCall → Option Field × Schema
  | insert f => s.exchange f
  | withField f => (none, s.insert f)

end FieldCall

namespace Schema

/-- A schema after calls one after another. -/
def after (s : Schema) (calls : List FieldCall) : Schema := calls.foldl (fun s c => (c.run s).2) s

/-- What a schema holds after some fields were set in order. -/
structure KeepsLast (s : Schema) (fields : List Field) : Prop where
  named : ∀ e ∈ s.fields, e.1 = e.2.name
  nodup : s.keys.Nodup
  ordered : s.keys.Pairwise fun a b =>
    fields.findIdx (a == ·.name) < fields.findIdx (b == ·.name)
  last : ∀ name, s.get? name = fields.reverse.find? (name == ·.name)
  entries : s.toType = .object (s.keys.filterMap fun key => (s.get? key).map (key, ·))

/-- A field with the key that it is set under. -/
def entryOf (f : Field) : String × Field := (f.name, f)

variable {s : Schema} {fields : List Field}

theorem exchange_eq (s : Schema) (f : Field) : s.exchange f = (s.get? f.name, s.insert f) := by
  rw [exchange, Table.exchange_eq]
  rfl

/-- Setting a field fills the table with one more. -/
theorem fields_insert (h : s.fields = Table.ofEntries (fields.map entryOf)) (f : Field) :
    (s.insert f).fields = Table.ofEntries ((fields ++ [f]).map entryOf) := by
  rw [List.map_append, List.map_singleton, Table.ofEntries_concat, ← h]
  rfl

theorem run_snd (s : Schema) (c : FieldCall) : (c.run s).2 = s.insert c.field := by
  cases c with
  | insert f => rw [FieldCall.run, exchange_eq]; rfl
  | withField f => rfl

/-- Only a field with a new name makes a schema longer. -/
theorem size_insert (s : Schema) (f : Field) :
    (s.insert f).size = if f.name ∈ s.keys then s.size else s.size + 1 :=
  Table.length_insert f.name f s.fields

theorem foldl_insert (name : String) (fields : List Field) :
    (fields.foldl insert (empty name)).name = name ∧
      (fields.foldl insert (empty name)).fields = Table.ofEntries (fields.map entryOf) := by
  induction fields using List.reverseRecOn with
  | nil => exact ⟨rfl, rfl⟩
  | append_singleton fields f ih =>
    rw [List.foldl_append, List.foldl_cons, List.foldl_nil]
    exact ⟨ih.1, fields_insert ih.2 f⟩

theorem after_eq_foldl (s : Schema) (calls : List FieldCall) :
    s.after calls = (calls.map FieldCall.field).foldl insert s := by
  rw [after, List.foldl_map]
  exact congrArg (fun step => calls.foldl step s) (funext fun s => funext fun c => run_snd s c)

theorem keepsLast_of_fields (h : s.fields = Table.ofEntries (fields.map entryOf)) :
    s.KeepsLast fields := by
  have hnodup : s.keys.Nodup := by
    rw [keys, h]
    exact Table.nodup_keys_ofEntries _
  refine ⟨fun e he => ?named, hnodup, ?ordered, fun name => ?last, ?entries⟩
  case named =>
    rw [h] at he
    obtain ⟨f, -, rfl⟩ := List.mem_map.mp (Table.mem_ofEntries he)
    rfl
  case ordered =>
    have hpairs := Table.pairwise_findIdx_ofEntriesBy Table.equivalence_beq (fields.map entryOf)
    rw [keys, Table.keys, h, List.pairwise_map]
    refine hpairs.imp fun {p q} hlt => ?_
    rwa [List.findIdx_map, List.findIdx_map] at hlt
  case last =>
    rw [get?, h, Table.lookup_ofEntries, Table.lookup_eq_find?, ← List.map_reverse, List.find?_map,
      Option.map_map]
    exact congrFun Option.map_id _
  case entries =>
    have hself : ∀ e ∈ s.fields, (s.get? e.1).map (e.1, ·) = some e := fun e he => by
      rw [get?, Table.lookup_of_mem hnodup he, Option.map_some]
    rw [toType, keys, Table.keys, List.filterMap_map]
    congr 1
    calc s.fields = s.fields.filterMap some := List.filterMap_some.symm
      _ = _ := List.filterMap_congr fun e he => (hself e he).symm

theorem mem_keys (h : s.fields = Table.ofEntries (fields.map entryOf)) {name : String} :
    name ∈ s.keys ↔ name ∈ fields.map (·.name) := by
  rw [keys, h, Table.mem_keys_ofEntries, Table.keys, List.map_map]
  rfl

end Schema

theorem structOf_eq_foldl (options : Options) (d : StructDef) :
    structOf options d = (d.fields.map (fieldOf options)).foldl Schema.insert (.empty d.name) := by
  rw [structOf, List.foldl_map]

/-- A schema keeps its fields in the order in which their names came first, each under its name, and
of the fields with one name the last. This holds after any calls on a new schema, where an insertion
gives back just the field that it replaces and only a new name adds to the size, and for the schema
of a struct, with what its declarations give by themselves. -/
theorem fields_keep_last :
    (∀ (name : String) (calls : List FieldCall),
      let fields := calls.map FieldCall.field
      let s := (Schema.empty name).after calls
      s.name = name ∧ s.KeepsLast fields ∧
        (∀ f, (FieldCall.insert f).run s = (fields.reverse.find? (f.name == ·.name), s.insert f)) ∧
        ∀ c : FieldCall, (c.run s).2.size =
          if c.field.name ∈ fields.map (·.name) then s.size else s.size + 1) ∧
    ∀ (options : Options) (d : StructDef) (warnings : List Warning),
      let built (f : FieldDef) : Field := ((Session.field options "" f).run []).1
      let s := ((Session.struct options d).run warnings).1
      s.name = d.name ∧ s.KeepsLast (d.fields.map built) ∧
        ∀ name, s.get? name = (d.fields.reverse.find? (name == ·.name)).map built := by
  constructor
  · intro name calls fields s
    obtain ⟨hname, hfields⟩ := Schema.foldl_insert name fields
    rw [← Schema.after_eq_foldl] at hname hfields
    have hkeeps := Schema.keepsLast_of_fields hfields
    refine ⟨hname, hkeeps, fun f => ?_, fun c => ?_⟩
    · rw [FieldCall.run, Schema.exchange_eq, hkeeps.last]
    · have hkeys : c.field.name ∈ s.keys ↔ c.field.name ∈ fields.map (·.name) :=
        Schema.mem_keys hfields
      simp only [Schema.run_snd, Schema.size_insert, hkeys]
  · intro options d warnings built s
    have hbuilt : built = fieldOf options := funext fun f => Session.fst_field options "" f
    have hs : s = structOf options d := Session.fst_struct options d
    obtain ⟨hname, hfields⟩ := Schema.foldl_insert d.name (d.fields.map built)
    rw [hbuilt, ← structOf_eq_foldl, ← hs] at hname hfields
    have hkeeps := Schema.keepsLast_of_fields hfields
    refine ⟨hname, hbuilt ▸ hkeeps, fun name => ?_⟩
    have hdeclared : (fun f => name == (fieldOf options f).name) = (name == ·.name) :=
      funext fun f => by rw [(fieldOf_eq options f).1]
    rw [hkeeps.last, ← List.map_reverse, List.find?_map, hbuilt]
    exact congrArg (fun test => (d.fields.reverse.find? test).map (fieldOf options)) hdeclared

/-- A name that comes again keeps its place and takes the new field. -/
example (a b c : SchemaType) :
    ((Schema.empty "S").after
      [.withField ⟨"x", a, []⟩, .withField ⟨"y", b, []⟩, .insert ⟨"x", c, []⟩]).fields =
      [("x", ⟨"x", c, []⟩), ("y", ⟨"y", b, []⟩)] := rfl

end SchemaGen
