import SchemaGen.Proofs.Schema.Equality
import SchemaGen.Proofs.Schema.Table

namespace SchemaGen

section Annotations

variable {notes others : List (String × String)}

theorem sameAnnotations_iff :
    sameAnnotations notes others = true ↔
      notes.length = others.length ∧ ∀ e ∈ notes, ∃ v, others.lookup e.1 = some v ∧ e.2 = v := by
  rw [sameAnnotations, Bool.and_eq_true, beq_iff_eq, List.all_eq_true]
  refine and_congr_right fun _ => forall₂_congr fun e _ => ?_
  rw [beq_iff_eq]
  exact ⟨fun h => ⟨e.2, h, rfl⟩, fun ⟨v, h, hv⟩ => hv ▸ h⟩

theorem sameAnnotations_symm (hk : (Table.keys notes).Nodup) (hk' : (Table.keys others).Nodup)
    (h : sameAnnotations notes others = true) : sameAnnotations others notes = true := by
  obtain ⟨hlength, hfound⟩ := sameAnnotations_iff.mp h
  refine sameAnnotations_iff.mpr ⟨hlength.symm, fun e he => ?_⟩
  obtain ⟨v, hv, hvalue⟩ := Table.found_symm hk hk' hlength hfound e he
  exact ⟨v, hv, hvalue.symm⟩

theorem sameAnnotations_self (hk : (Table.keys notes).Nodup) :
    sameAnnotations notes notes = true :=
  sameAnnotations_iff.mpr ⟨rfl, fun e he => ⟨e.2, Table.lookup_of_mem hk he, rfl⟩⟩

theorem sameAnnotations_of_perm (h : notes.Perm others) (third : List (String × String)) :
    sameAnnotations notes third = sameAnnotations others third := by
  rw [sameAnnotations, sameAnnotations, h.length_eq, h.all_eq]

end Annotations

theorem FieldOf.isKeyed_iff {f : Field} :
    f.isKeyed = true ↔ f.type.isKeyed = true ∧ (Table.keys f.annotations).Nodup := by
  rw [isKeyed, Bool.and_eq_true, decide_eq_true_eq]

namespace SchemaType

/-- Equality of the fields under one key. -/
def fieldsEqual (f g : Field) : Bool :=
  f.name == g.name && equal f.type g.type && sameAnnotations f.annotations g.annotations

theorem fieldsEqual_iff {f g : Field} :
    fieldsEqual f g = true ↔
      f.name = g.name ∧ equal f.type g.type = true ∧
        sameAnnotations f.annotations g.annotations = true := by
  rw [fieldsEqual, Bool.and_eq_true, Bool.and_eq_true, beq_iff_eq, and_assoc]

theorem fieldsIn_eq_all (fields others : List (String × Field)) :
    fieldsIn fields others = fields.all fun e => (others.lookup e.1).any (fieldsEqual e.2) := by
  induction fields with
  | nil => rfl
  | cons e fields ih =>
    rw [fieldsIn, ih, List.all_cons]
    cases others.lookup e.1 <;> rfl

theorem fieldsIn_iff {fields others : List (String × Field)} :
    fieldsIn fields others = true ↔
      ∀ e ∈ fields, ∃ g, others.lookup e.1 = some g ∧ fieldsEqual e.2 g = true := by
  simp only [fieldsIn_eq_all, List.all_eq_true, Option.any_eq_true]

theorem isKeyed_object {fields : List (String × Field)} :
    (object fields).isKeyed = true ↔
      (Table.keys fields).Nodup ∧ ∀ e ∈ fields, e.2.isKeyed = true := by
  rw [isKeyed, Bool.and_eq_true, decide_eq_true_eq, fieldsKeyed_eq_all, List.all_eq_true]

/- Equality is symmetric where every key stands once, by the structure of the first type. -/
mutual

theorem equal_symm (a b : SchemaType) (ha : a.isKeyed = true) (hb : b.isKeyed = true)
    (h : equal a b = true) : equal b a = true := by
  match a, b with
  | string, string | number, number | boolean, boolean | void, void | any, any
  | unknown, unknown => rfl
  | array a, array b | set a, set b | optional a, optional b => exact equal_symm a b ha hb h
  | map k v, map l w =>
    rw [isKeyed, Bool.and_eq_true] at ha hb
    rw [equal, Bool.and_eq_true] at h ⊢
    exact ⟨equal_symm k l ha.1 hb.1 h.1, equal_symm v w ha.2 hb.2 h.2⟩
  | default a value, default b other =>
    rw [equal, Bool.and_eq_true] at h ⊢
    exact ⟨equal_symm a b ha hb h.1, Constant.equal_symm h.2⟩
  | object fields, object others =>
    obtain ⟨hnodup, hkeyed⟩ := isKeyed_object.mp ha
    obtain ⟨hnodup', hkeyed'⟩ := isKeyed_object.mp hb
    rw [equal, Bool.and_eq_true, beq_iff_eq] at h ⊢
    refine ⟨h.1.symm, fieldsIn_iff.mpr fun e he => ?_⟩
    obtain ⟨f, hf, hequal⟩ :=
      Table.found_symm (R := fun f g => fieldsEqual f g = true) hnodup hnodup' h.1
        (fieldsIn_iff.mp h.2) e he
    have hmem := Table.mem_of_lookup hf
    exact ⟨f, hf, fieldsEqual_symm fields (_, f) hmem (hkeyed _ hmem) (hkeyed' e he) hequal⟩
  | union members, union others => exact membersEqual_symm members others ha hb h

theorem fieldsEqual_symm (fields : List (String × Field)) :
    ∀ e ∈ fields, ∀ {g : Field}, e.2.isKeyed = true → g.isKeyed = true →
      fieldsEqual e.2 g = true → fieldsEqual g e.2 = true := by
  match fields with
  | [] => exact fun e he => absurd he List.not_mem_nil
  | (key, ⟨name, type, notes⟩) :: fields =>
    refine List.forall_mem_cons.mpr ⟨fun {g} hf hg h => ?_, fieldsEqual_symm fields⟩
    obtain ⟨htype, hnotes⟩ := FieldOf.isKeyed_iff.mp hf
    obtain ⟨htype', hnotes'⟩ := FieldOf.isKeyed_iff.mp hg
    obtain ⟨hname, hequal, hsame⟩ := fieldsEqual_iff.mp h
    exact fieldsEqual_iff.mpr ⟨hname.symm, equal_symm type g.type htype htype' hequal,
      sameAnnotations_symm hnotes hnotes' hsame⟩

theorem membersEqual_symm (members others : List SchemaType)
    (hm : membersKeyed members = true) (ho : membersKeyed others = true)
    (h : membersEqual members others = true) : membersEqual others members = true := by
  match members, others with
  | [], [] => rfl
  | a :: members, b :: others =>
    rw [membersKeyed, Bool.and_eq_true] at hm ho
    rw [membersEqual, Bool.and_eq_true] at h ⊢
    exact ⟨equal_symm a b hm.1 ho.1 h.1, membersEqual_symm members others hm.2 ho.2 h.2⟩

end

theorem equal_comm {a b : SchemaType} (ha : a.isKeyed = true) (hb : b.isKeyed = true) :
    equal a b = equal b a :=
  Bool.eq_iff_iff.mpr ⟨equal_symm a b ha hb, equal_symm b a hb ha⟩

/- A type equals itself if no default in it holds NaN. -/
mutual

theorem equal_self_iff (a : SchemaType) (ha : a.isKeyed = true) :
    equal a a = true ↔ .nan ∉ a.numbers := by
  match a with
  | string | number | boolean | void | any | unknown => simp [equal, numbers]
  | array a | set a | optional a => exact equal_self_iff a ha
  | map k v =>
    rw [isKeyed, Bool.and_eq_true] at ha
    rw [equal, Bool.and_eq_true, equal_self_iff k ha.1, equal_self_iff v ha.2, numbers,
      List.mem_append, not_or]
  | default a value =>
    rw [equal, Bool.and_eq_true, equal_self_iff a ha, value.equal_self_iff, numbers,
      List.mem_append, not_or]
  | object fields =>
    obtain ⟨hnodup, hkeyed⟩ := isKeyed_object.mp ha
    rw [equal, Bool.and_eq_true, beq_iff_eq, and_iff_right rfl, numbers]
    exact fieldsIn_self_iff fields fields hnodup (fun _ h => h) hkeyed
  | union members => exact membersEqual_self_iff members ha

/-- The fields are looked up among all others. -/
theorem fieldsIn_self_iff (fields all : List (String × Field)) (hall : (Table.keys all).Nodup)
    (hsub : ∀ e ∈ fields, e ∈ all) (hk : ∀ e ∈ fields, e.2.isKeyed = true) :
    fieldsIn fields all = true ↔ .nan ∉ fieldNumbers fields := by
  match fields with
  | [] => simp [fieldsIn, fieldNumbers]
  | (key, ⟨name, type, notes⟩) :: fields =>
    rw [List.forall_mem_cons] at hsub hk
    obtain ⟨htype, hnotes⟩ := FieldOf.isKeyed_iff.mp hk.1
    have hlookup := Table.lookup_of_mem hall hsub.1
    rw [fieldsIn, hlookup, fieldNumbers, List.mem_append, not_or, ← equal_self_iff type htype,
      ← fieldsIn_self_iff fields all hall hsub.2 hk.2]
    simp [sameAnnotations_self hnotes]

theorem membersEqual_self_iff (members : List SchemaType) (hk : membersKeyed members = true) :
    membersEqual members members = true ↔ .nan ∉ memberNumbers members := by
  match members with
  | [] => simp [membersEqual, memberNumbers]
  | a :: members =>
    rw [membersKeyed, Bool.and_eq_true] at hk
    rw [membersEqual, Bool.and_eq_true, equal_self_iff a hk.1, membersEqual_self_iff members hk.2,
      memberNumbers, List.mem_append, not_or]

end

/-- Another order for the fields of objects, and one for annotations. -/
structure Rearrangement where
  fields : List (String × Field) → List (String × Field)
  notes : List (String × String) → List (String × String)
  fields_perm (fs : List (String × Field)) : (fields fs).Perm fs
  notes_perm (ns : List (String × String)) : (notes ns).Perm ns

/- A type with its fields and annotations in another order, at any depth. -/
mutual

def rearrange (r : Rearrangement) : SchemaType → SchemaType
  | array t => array (rearrange r t)
  | set t => set (rearrange r t)
  | optional t => optional (rearrange r t)
  | map k v => map (rearrange r k) (rearrange r v)
  | default t value => default (rearrange r t) value
  | object fields => object (r.fields (rearrangeFields r fields))
  | union members => union (rearrangeMembers r members)
  | string => string
  | number => number
  | boolean => boolean
  | void => void
  | any => any
  | unknown => unknown

def rearrangeFields (r : Rearrangement) :
    List (String × FieldOf SchemaType) → List (String × FieldOf SchemaType)
  | [] => []
  | (key, ⟨name, type, notes⟩) :: rest =>
    (key, ⟨name, rearrange r type, r.notes notes⟩) :: rearrangeFields r rest

def rearrangeMembers (r : Rearrangement) : List SchemaType → List SchemaType
  | [] => []
  | m :: rest => rearrange r m :: rearrangeMembers r rest

end

variable (r : Rearrangement)

theorem keys_rearrangeFields (fields : List (String × Field)) :
    Table.keys (rearrangeFields r fields) = Table.keys fields := by
  induction fields with
  | nil => rfl
  | cons e fields ih => exact congrArg (e.1 :: ·) ih

theorem length_rearrangeFields (fields : List (String × Field)) :
    (r.fields (rearrangeFields r fields)).length = fields.length := by
  rw [(r.fields_perm _).length_eq]
  simpa [Table.keys] using congrArg List.length (keys_rearrangeFields r fields)

mutual

theorem equal_rearrange (a b : SchemaType) : equal (a.rearrange r) b = equal a b := by
  match a with
  | string | number | boolean | void | any | unknown => rfl
  | array a | set a | optional a => cases b <;> simp [rearrange, equal, equal_rearrange a]
  | map k v => cases b <;> simp [rearrange, equal, equal_rearrange k, equal_rearrange v]
  | default a value => cases b <;> simp [rearrange, equal, equal_rearrange a]
  | object fields =>
    cases b with
    | object others =>
      rw [rearrange, equal, equal, length_rearrangeFields, fieldsIn_eq_all,
        (r.fields_perm _).all_eq, ← fieldsIn_eq_all, fieldsIn_rearrange fields]
    | _ => rfl
  | union members => cases b <;> simp [rearrange, equal, membersEqual_rearrange members]

theorem fieldsIn_rearrange (fields others : List (String × Field)) :
    fieldsIn (rearrangeFields r fields) others = fieldsIn fields others := by
  match fields with
  | [] => rfl
  | (key, ⟨name, type, notes⟩) :: fields =>
    rw [rearrangeFields, fieldsIn, fieldsIn, fieldsIn_rearrange fields]
    simp only [equal_rearrange type, sameAnnotations_of_perm (r.notes_perm notes)]

theorem membersEqual_rearrange (members others : List SchemaType) :
    membersEqual (rearrangeMembers r members) others = membersEqual members others := by
  match members, others with
  | [], [] | [], _ :: _ | _ :: _, [] => rfl
  | a :: members, b :: others =>
    rw [rearrangeMembers, membersEqual, membersEqual, equal_rearrange a,
      membersEqual_rearrange members]

end

mutual

theorem isKeyed_rearrange (a : SchemaType) : (a.rearrange r).isKeyed = a.isKeyed := by
  match a with
  | string | number | boolean | void | any | unknown => rfl
  | array a | set a | optional a => exact isKeyed_rearrange a
  | map k v => rw [rearrange, isKeyed, isKeyed, isKeyed_rearrange k, isKeyed_rearrange v]
  | default a _ => exact isKeyed_rearrange a
  | object fields =>
    have hkeys : (Table.keys (r.fields (rearrangeFields r fields))).Nodup ↔
        (Table.keys fields).Nodup := by
      rw [← keys_rearrangeFields r fields]
      exact ((r.fields_perm _).map _).nodup_iff
    rw [rearrange, isKeyed, isKeyed, decide_eq_decide.mpr hkeys, fieldsKeyed_eq_all,
      (r.fields_perm _).all_eq, ← fieldsKeyed_eq_all, fieldsKeyed_rearrange fields]
  | union members => exact membersKeyed_rearrange members

theorem fieldsKeyed_rearrange (fields : List (String × Field)) :
    fieldsKeyed (rearrangeFields r fields) = fieldsKeyed fields := by
  match fields with
  | [] => rfl
  | (key, ⟨name, type, notes⟩) :: fields =>
    have hkeys : (Table.keys (r.notes notes)).Nodup ↔ (Table.keys notes).Nodup :=
      ((r.notes_perm notes).map _).nodup_iff
    rw [rearrangeFields, fieldsKeyed, fieldsKeyed, isKeyed_rearrange type,
      decide_eq_decide.mpr hkeys, fieldsKeyed_rearrange fields]

theorem membersKeyed_rearrange (members : List SchemaType) :
    membersKeyed (rearrangeMembers r members) = membersKeyed members := by
  match members with
  | [] => rfl
  | a :: members =>
    rw [rearrangeMembers, membersKeyed, membersKeyed, isKeyed_rearrange a,
      membersKeyed_rearrange members]

end

/-- Equality does not see the order of fields and annotations on either side. -/
theorem equal_rearrange_right {a b : SchemaType} (ha : a.isKeyed = true) (hb : b.isKeyed = true) :
    equal b (a.rearrange r) = equal b a := by
  have ha' : (a.rearrange r).isKeyed = true := (isKeyed_rearrange r a).trans ha
  rw [equal_comm hb ha', equal_rearrange, equal_comm ha hb]

end SchemaType
end SchemaGen
