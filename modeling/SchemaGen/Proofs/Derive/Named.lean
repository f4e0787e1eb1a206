import SchemaGen.Proofs.Derive.Structs
import SchemaGen.Proofs.Emit.Rendering
import SchemaGen.Proofs.Idl.Canonical
import SchemaGen.Proofs.Idl.DocumentCompleteness

namespace SchemaGen

open Idl

variable {α : Type}

theorem Idl.items_forall {P : α → List Token → Prop} {Q : α → Prop} {as : List α} {ts : List Token}
    (h : Items P as ts) (hv : Valid ts)
    (hf : ∀ ⦃a us⦄, us.length ≤ ts.length → Sayable P a us → Q a) : ∀ a ∈ as, Q a := by
  induction h with
  | nil => exact fun _ h => absurd h List.not_mem_nil
  | @cons a as us sep vs ha hs _ ih =>
    simp only [valid_append] at hv
    refine List.forall_mem_cons.mpr ⟨hf (by simp only [List.length_append]; omega) ⟨ha, hv.1.1⟩, ?_⟩
    exact ih hv.2 fun b ws hl hb => hf (by simp only [List.length_append]; omega) hb

theorem Idl.enclosed_forall {P : α → List Token → Prop} {Q : α → Prop} {opening closing : String}
    {as : List α} {ts : List Token} (h : Enclosed opening P closing as ts) (hv : Valid ts)
    (hf : ∀ ⦃a us⦄, Sayable P a us → Q a) : ∀ a ∈ as, Q a := by
  obtain ⟨us, hus, rfl⟩ := h
  simp only [valid_cons, valid_append] at hv
  exact items_forall hus hv.2.1 fun a vs _ ha => hf ha

namespace Idl.ConstExpr

theorem named_ofEntries {entries : List (Constant × Constant)}
    (h : ∀ p ∈ entries, p.1.Named ∧ p.2.Named) : (Constant.ofEntries entries).Named := by
  refine .map (fun p hp => ?_) fun p hp => ?_
  · obtain ⟨⟨q, hq, hk⟩, -⟩ := Table.mem_ofEntriesBy hp
    exact hk ▸ (h q hq).1
  · obtain ⟨-, q, hq, hv⟩ := Table.mem_ofEntriesBy hp
    exact hv ▸ (h q hq).2

theorem named_value {e : ConstExpr} {ts : List Token} (h : Sayable ConstExpr.Spells e ts) :
    e.value.Named := by
  induction hn : ts.length using Nat.strongRecOn generalizing e ts with
  | ind n ih =>
    obtain ⟨h, hv⟩ := h
    cases h with
    | bool b => exact .bool b
    | int text | double text | string text => exact .number _
    | identifier _ => exact .identifier (valid_cons.mp hv).1
    | @list items us h =>
      simp only [valid_cons, valid_append] at hv
      simp only [List.length_cons, List.length_append] at hn
      rw [value, values_eq_map]
      refine .list (List.forall_mem_map.mpr ?_)
      exact items_forall h hv.2.1 fun e vs hl he => ih vs.length (by omega) he rfl
    | @map entries us h =>
      simp only [valid_cons, valid_append] at hv
      simp only [List.length_cons, List.length_append] at hn
      rw [value, entryValues_eq_map]
      refine named_ofEntries (List.forall_mem_map.mpr ?_)
      refine items_forall h hv.2.1 fun e vs hl he => ?_
      obtain ⟨he, hvs⟩ := he
      cases he with
      | mk hk hkv =>
        simp only [List.length_append, List.length_cons] at hl
        simp only [valid_append, valid_cons] at hvs
        exact ⟨ih _ (by omega) ⟨hk, hvs.1⟩ rfl, ih _ (by omega) ⟨hkv, hvs.2.2⟩ rfl⟩

end Idl.ConstExpr

theorem named_schemaOf (t : FieldType) : (schemaOf t).Named := by
  induction t with
  | base b => cases b <;> constructor
  | named name => exact .unknown
  | list t ih => exact .array ih
  | set t ih => exact .set ih
  | map k v ihk ihv => exact .map ihk ihv

/-- The names of a field are names. -/
structure FieldOf.Named (f : Field) : Prop where
  name : isName f.name.toList = true
  type : f.type.Named
  notes : ∀ a ∈ f.annotations, isName a.1.toList = true

theorem named_fieldSchema (options : Options) {f : FieldDef}
    (h : ∀ e ∈ f.default, e.value.Named) : (Session.fieldSchema options f).Named := by
  have ht := named_schemaOf f.type
  unfold Session.fieldSchema
  split
  · next e he => exact .default ht (h e he)
  · split
    · exact .optional ht
    · exact ht

theorem named_annotated {f : Field} {a : Annotation} (hf : f.Named)
    (ha : isName a.name.toList = true) : (annotated f a).Named := by
  obtain ⟨hname, htype, -⟩ := annotated_eq f a
  refine ⟨hname ▸ hf.name, htype ▸ hf.type, fun b hb => ?_⟩
  unfold annotated at hb
  split at hb
  · rcases Table.mem_insert hb with rfl | hb
    · exact ha
    · exact hf.notes b hb
  · exact hf.notes b hb

theorem named_fieldOf (options : Options) {f : FieldDef} {ts : List Token}
    (h : Sayable FieldDef.Spells f ts) : (fieldOf options f).Named := by
  obtain ⟨h, hv⟩ := h
  have hfold (as : List Annotation) (g : Field) (hg : g.Named)
      (has : ∀ a ∈ as, isName a.name.toList = true) : (as.foldl annotated g).Named := by
    induction as generalizing g with
    | nil => exact hg
    | cons a as ih =>
      rw [List.forall_mem_cons] at has
      exact ih _ (named_annotated hg has.1) has.2
  obtain ⟨id, requiredness, type, name, value, notes⟩ := f
  cases h with
  | @mk is ts ds ns hi hr ht hd hn =>
    simp only [valid_append, valid_cons] at hv
    obtain ⟨-, -, -, hname, hds, hns⟩ := hv
    have hdefault : ∀ e ∈ value, e.value.Named := by
      cases hd with
      | absent => simp
      | @present e _ he =>
        obtain ⟨us, hus, rfl⟩ := he
        have hvalue := ConstExpr.named_value ⟨hus, (valid_cons.mp hds).2⟩
        simpa using hvalue
    refine hfold _ _ ⟨hname, named_fieldSchema options hdefault, by simp⟩ ?_
    cases hn with
    | absent => simp
    | present ha =>
      refine enclosed_forall ha hns ?_
      rintro a us ⟨rfl, hv⟩
      exact (valid_cons.mp hv).1

/-- Every struct that is derived from a text has a usable name, and its fields have names. -/
theorem named_structs {source : String} {options : Options} {d : Document}
    (hp : Idl.parse source = .ok d) {s : Schema} (hs : s ∈ (deriveDocument options d).structs) :
    Text.isBareName s.name = true ∧ ∀ e ∈ s.fields, e.2.Named := by
  obtain ⟨b, hb, hbare, rfl⟩ := mem_structs hs
  obtain ⟨hname, -, hsource⟩ := structOf_eq options b
  refine ⟨hname ▸ hbare, fun e he => ?_⟩
  obtain ⟨ts, hspells, run⟩ := parse_eq_ok_iff_spells.mp hp
  have hv := run.valid
  cases hspells with
  | mk hh hd =>
    rw [valid_append] at hv
    have hall := items_forall hd hv.2 (Q := fun e => ∀ b, e = .struct b →
      ∀ f ∈ b.fields, (fieldOf options f).Named) fun e us _ he => by
        rintro b rfl
        obtain ⟨he, hus⟩ := he
        cases he with
        | struct hs =>
          obtain ⟨fs, ns, notes, hf, -, -, rfl⟩ := hs
          simp only [valid_append, valid_cons] at hus
          exact enclosed_forall hf hus.2.2.1 fun f vs => named_fieldOf options
    obtain ⟨f, hf, rfl⟩ := hsource e he
    exact hall _ hb b rfl f hf

end SchemaGen
