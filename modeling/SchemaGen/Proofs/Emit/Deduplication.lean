import SchemaGen.Proofs.Emit.Rendering
import SchemaGen.Proofs.Schema.Equality
import SchemaGen.Proofs.Schema.Table
import SchemaGen.Schema.Contents

namespace SchemaGen

open Text

theorem eraseDups_append_cons {α : Type} [BEq α] [LawfulBEq α] {a : α} {front : List α}
    (h : a ∈ front) (back : List α) :
    (front ++ a :: back).eraseDups = (front ++ back).eraseDups := by
  have hdrop : (a :: back).removeAll front = back.removeAll front := by
    simp [List.removeAll, h]
  rw [List.eraseDups_append, List.eraseDups_append, hdrop]

namespace SchemaType

/- Whether the fields of objects stand in the same order in two types of one shape, at any depth. -/
mutual

def sameOrder : SchemaType → SchemaType → Bool
  | array a, array b | set a, set b | optional a, optional b => sameOrder a b
  | map k v, map l w => sameOrder k l && sameOrder v w
  | object fields, object others => fieldsInOrder fields others
  | union members, union others => membersInOrder members others
  | default a _, default b _ => sameOrder a b
  | _, _ => true

def fieldsInOrder : List (String × FieldOf SchemaType) → List (String × FieldOf SchemaType) → Bool
  | [], [] => true
  | (key, ⟨_, type, _⟩) :: fields, (key', ⟨_, type', _⟩) :: others =>
    key == key' && sameOrder type type' && fieldsInOrder fields others
  | _, _ => false

def membersInOrder : List SchemaType → List SchemaType → Bool
  | a :: members, b :: others => sameOrder a b && membersInOrder members others
  | _, _ => true

end

theorem isLookedAt_of_equal {a b : SchemaType} (h : equal a b = true) :
    a.isLookedAt = b.isLookedAt := by
  match a, b with
  | string, string | number, number | boolean, boolean | void, void | any, any
  | unknown, unknown => rfl
  | array _, array _ | set _, set _ | map _ _, map _ _ | object _, object _
  | default _ _, default _ _ | optional _, optional _ => rfl
  | union [], union [] | union (_ :: _), union (_ :: _) => rfl

theorem defaultText_string (value : Constant) : defaultText string value = quote value.text := rfl

theorem defaultText_of_ne {inner : SchemaType} (h : inner ≠ string) (value : Constant) :
    defaultText inner value = value.literal := by
  cases inner with
  | string => exact absurd rfl h
  | number | boolean => cases value <;> rfl
  | _ => rfl

theorem defaultText_of_equal {a b : SchemaType} {value other : Constant} (h : equal a b = true)
    (hv : value.equal other = true) : defaultText a value = defaultText b other := by
  obtain ⟨hliteral, htext⟩ := Constant.texts_of_equal value other hv
  by_cases hs : a = string
  · subst hs
    cases b with
    | string => rw [defaultText_string, defaultText_string, htext]
    | _ => cases h
  · have hb : b ≠ string := by
      rintro rfl
      cases a with
      | string => exact hs rfl
      | _ => cases h
    rw [defaultText_of_ne hs, defaultText_of_ne hb, hliteral]

variable (p : String)

/- Equal types in the same order have the same text, alone and in an array, by the structure of the
first. -/
mutual

theorem texts_of_equal (a b : SchemaType) (hk : b.isKeyed = true) (he : equal a b = true)
    (ho : sameOrder a b = true) :
    render p a = render p b ∧ argumentText p a = argumentText p b := by
  match a, b with
  | string, string | number, number | boolean, boolean | void, void | any, any
  | unknown, unknown => exact ⟨rfl, rfl⟩
  | array a, array b =>
    rw [equal] at he
    obtain ⟨htext, hargument⟩ := texts_of_equal a b hk he ho
    have h : render p (array a) = render p (array b) := by
      rw [render_array, render_array, htext, hargument, isLookedAt_of_equal he]
    exact ⟨h, h⟩
  | set a, set b =>
    have h : render p (set a) = render p (set b) := by
      rw [render, render, (texts_of_equal a b hk he ho).1]
    exact ⟨h, h⟩
  | optional a, optional b =>
    have h : render p (optional a) = render p (optional b) := by
      rw [render, render, (texts_of_equal a b hk he ho).1]
    exact ⟨h, h⟩
  | map k v, map l w =>
    rw [isKeyed, Bool.and_eq_true] at hk
    rw [equal, Bool.and_eq_true] at he
    rw [sameOrder, Bool.and_eq_true] at ho
    have h : render p (map k v) = render p (map l w) := by
      rw [render, render, (texts_of_equal k l hk.1 he.1 ho.1).1,
        (texts_of_equal v w hk.2 he.2 ho.2).1]
    exact ⟨h, h⟩
  | default a value, default b other =>
    rw [equal, Bool.and_eq_true] at he
    have h : render p (default a value) = render p (default b other) := by
      rw [render, render, (texts_of_equal a b hk he.1 ho).1, defaultText_of_equal he.1 he.2]
    exact ⟨h, h⟩
  | object fields, object others =>
    rw [isKeyed, Bool.and_eq_true, decide_eq_true_eq] at hk
    rw [equal, Bool.and_eq_true] at he
    have h : render p (object fields) = render p (object others) := by
      rw [render, render, renderProperties_of_equal fields others others hk.1 (fun _ h => h) hk.2
        he.2 ho]
    exact ⟨h, h⟩
  | union members, union others =>
    have hmembers := renderMembers_of_equal members others hk he ho
    have h : render p (union members) = render p (union others) := by
      rw [render, render, hmembers]
    refine ⟨h, ?_⟩
    rw [argumentText, argumentText, hmembers, h]

/-- The fields are found among all others, and their keys are those of the others one by one. -/
theorem renderProperties_of_equal (fields others all : List (String × Field))
    (hall : (Table.keys all).Nodup) (hsub : ∀ e ∈ others, e ∈ all)
    (hk : fieldsKeyed others = true) (he : fieldsIn fields all = true)
    (ho : fieldsInOrder fields others = true) :
    renderProperties p fields = renderProperties p others := by
  match fields, others with
  | [], [] => rfl
  | (key, ⟨name, type, notes⟩) :: fields, (key', ⟨name', type', notes'⟩) :: others =>
    rw [fieldsInOrder, Bool.and_eq_true, Bool.and_eq_true, beq_iff_eq] at ho
    obtain ⟨⟨rfl, horder⟩, ho⟩ := ho
    rw [fieldsKeyed, Bool.and_eq_true, Bool.and_eq_true] at hk
    rw [List.forall_mem_cons] at hsub
    have hlookup := Table.lookup_of_mem hall hsub.1
    rw [fieldsIn, hlookup, Bool.and_eq_true, Bool.and_eq_true, Bool.and_eq_true] at he
    rw [renderProperties, renderProperties, (texts_of_equal type type' hk.1.1 he.1.1.2 horder).1,
      renderProperties_of_equal fields others all hall hsub.2 hk.2 he.2 ho]

theorem renderMembers_of_equal (members others : List SchemaType)
    (hk : membersKeyed others = true) (he : membersEqual members others = true)
    (ho : membersInOrder members others = true) :
    renderMembers p members = renderMembers p others := by
  match members, others with
  | [], [] => rfl
  | a :: members, b :: others =>
    rw [membersKeyed, Bool.and_eq_true] at hk
    rw [membersEqual, Bool.and_eq_true] at he
    rw [membersInOrder, Bool.and_eq_true] at ho
    rw [renderMembers, renderMembers, (texts_of_equal a b hk.1 he.1 ho.1).1,
      renderMembers_of_equal members others hk.2 he.2 ho.2]

end

/-- Members are kept if nothing before them equals them; the others have a text that is there. -/
theorem eraseDups_foldl {f : SchemaType → String} (kept members : List SchemaType)
    (h : (kept ++ members).Pairwise fun a b => equal a b = true → f a = f b) :
    ((members.foldl (fun kept m => if kept.any (·.equal m) then kept else kept ++ [m]) kept).map
      f).eraseDups = ((kept ++ members).map f).eraseDups := by
  induction members generalizing kept with
  | nil => rw [List.foldl_nil, List.append_nil]
  | cons m members ih =>
    rw [List.foldl_cons]
    split
    · next hany =>
      obtain ⟨k, hk, hequal⟩ := List.any_eq_true.mp hany
      have htext : f k = f m :=
        (List.pairwise_append.mp h).2.2 k hk m List.mem_cons_self hequal
      have hmem : f m ∈ kept.map f := htext ▸ List.mem_map_of_mem hk
      have hsub : (kept ++ members).Sublist (kept ++ m :: members) :=
        (List.sublist_cons_self m members).append_left kept
      rw [ih kept (h.sublist hsub), List.map_append, List.map_append, List.map_cons,
        eraseDups_append_cons hmem]
    · have happend : kept ++ m :: members = kept ++ [m] ++ members := by simp
      rw [happend] at h ⊢
      exact ih (kept ++ [m]) h

variable {p} {members : List SchemaType}

/-- Dropping members that equal an earlier one of the same text drops no text. -/
theorem eraseDups_distinct
    (h : members.Pairwise fun a b => equal a b = true → render p a = render p b) :
    (renderMembers p (distinct members)).eraseDups = (renderMembers p members).eraseDups := by
  rw [renderMembers_eq_map, renderMembers_eq_map]
  exact eraseDups_foldl [] members h

/-- The union of the distinct members is rendered as the union of all members, alone and in an
array, if members that are equal list the fields of their objects in the same order. -/
theorem render_unionOf (hk : ∀ m ∈ members, m.isKeyed = true)
    (h : members.Pairwise fun a b => equal a b = true → sameOrder a b = true) :
    render p (unionOf members) = render p (union members) ∧
      render p (array (unionOf members)) = render p (array (union members)) := by
  have htexts : members.Pairwise fun a b => equal a b = true → render p a = render p b :=
    h.imp_of_mem fun _ hb horder he => (texts_of_equal p _ _ (hk _ hb) he (horder he)).1
  have hmembers := eraseDups_distinct htexts
  constructor
  · rw [unionOf, render, render, hmembers]
  · rw [unionOf, render, render, hmembers]

/-- An object with a default, annotations and a union. -/
def counter (start : Numeric.Binary64) (notes : List (String × String)) : SchemaType :=
  object [("a", ⟨"a", default number (.number start), notes⟩),
    ("b", ⟨"b", union [string, set string], []⟩)]

/-- Objects that differ in the sign of a zero and in the order of annotations, and NaN twice. -/
def counters : List SchemaType :=
  [counter .zero [("x", "1"), ("y", "2")], counter (.neg .zero) [("y", "2"), ("x", "1")],
    default number (.number .nan), default number (.number .nan)]

theorem render_unionOf_counters :
    (∀ m ∈ counters, m.isKeyed = true) ∧
      (counters.Pairwise fun a b => equal a b = true → sameOrder a b = true) ∧
      (distinct counters).length = 3 ∧
      render "" (unionOf counters) = render "" (union counters) ∧
      render "z." (array (union counters)) = render "z." (array (unionOf counters)) ∧
      render "" (union counters) = "union([object(\x7b a: number().default(0), " ++
        "b: union([string(), set(string())]) \x7d), number().default(NaN)])" := by
  have hk : ∀ m ∈ counters, m.isKeyed = true := by decide +kernel
  have h : counters.Pairwise fun a b => equal a b = true → sameOrder a b = true := by
    decide +kernel
  exact ⟨hk, h, by decide +kernel, (render_unionOf hk h).1, (render_unionOf hk h).2.symm,
    by decide +kernel⟩

/-- Objects of the same fields in another order are equal, and one of them is dropped. -/
theorem render_unionOf_reordered :
    let a : String × Field := ("a", ⟨"a", string, []⟩)
    let b : String × Field := ("b", ⟨"b", number, []⟩)
    let members := [object [a, b], object [b, a]]
    (∀ m ∈ members, m.isKeyed = true) ∧
      render "" (union members) = "union([object(\x7b a: string(), b: number() \x7d), " ++
        "object(\x7b b: number(), a: string() \x7d)])" ∧
      render "" (unionOf members) = "union([object(\x7b a: string(), b: number() \x7d)])" ∧
      render "" (array (unionOf members)) ≠ render "" (array (union members)) := by
  decide +kernel

end SchemaType
end SchemaGen
