import SchemaGen.Proofs.Emit.Elements
import SchemaGen.Proofs.Emit.Unambiguous

namespace SchemaGen

open Text

section Distinct

variable {α β : Type}

theorem eraseDupsBy_sublist (r : α → α → Bool) (l : List α) : (l.eraseDupsBy r).Sublist l := by
  match l with
  | [] => exact List.Sublist.slnil
  | a :: l =>
    rw [List.eraseDupsBy_cons]
    exact ((eraseDupsBy_sublist r _).trans List.filter_sublist).cons_cons a
termination_by l.length
decreasing_by exact Nat.lt_succ_of_le (List.length_filter_le _ _)

/-- Texts of items are told apart as the items are by their texts. -/
theorem eraseDups_map [BEq β] (f : α → β) (l : List α) :
    (l.map f).eraseDups = (l.eraseDupsBy fun a b => f a == f b).map f := by
  match l with
  | [] => rfl
  | a :: l =>
    rw [List.map_cons, List.eraseDups_cons, List.eraseDupsBy_cons, List.map_cons, List.filter_map]
    rw [eraseDups_map f (l.filter _)]
    simp [Function.comp_def]
termination_by l.length
decreasing_by exact Nat.lt_succ_of_le (List.length_filter_le _ _)

theorem eraseDupsBy_congr {r s : α → α → Bool} {l : List α}
    (h : ∀ a ∈ l, ∀ b ∈ l, r a b = s a b) : l.eraseDupsBy r = l.eraseDupsBy s := by
  match l with
  | [] => rfl
  | a :: l =>
    have hfilter : (l.filter fun b => r b a = false) = l.filter fun b => s b a = false := by
      apply List.filter_congr
      intro b hb
      rw [h b (by simp [hb]) a (by simp)]
    rw [List.eraseDupsBy_cons, List.eraseDupsBy_cons, hfilter]
    congr 1
    apply eraseDupsBy_congr
    intro b hb c hc
    exact h b (List.mem_cons_of_mem a (List.mem_filter.mp hb).1) c
      (List.mem_cons_of_mem a (List.mem_filter.mp hc).1)
termination_by l.length
decreasing_by exact Nat.lt_succ_of_le (List.length_filter_le _ _)

/-- A map that is injective on a list keeps its repetitions. -/
theorem eraseDups_map_of_injective [BEq α] [LawfulBEq α] [BEq β] [LawfulBEq β] {f : α → β}
    {l : List α} (h : ∀ a ∈ l, ∀ b ∈ l, f a = f b → a = b) :
    (l.map f).eraseDups = l.eraseDups.map f := by
  rw [eraseDups_map, List.eraseDups]
  congr 1
  apply eraseDupsBy_congr
  intro a ha b hb
  rw [Bool.eq_iff_iff, beq_iff_eq, beq_iff_eq]
  exact ⟨h a ha b hb, congrArg f⟩

end Distinct

namespace SchemaType

open CallTree

/-- The names of constants in the defaults of a type are names. -/
inductive Named : SchemaType → Prop where
  | string : Named .string
  | number : Named .number
  | boolean : Named .boolean
  | void : Named .void
  | any : Named .any
  | unknown : Named .unknown
  | array {element : SchemaType} (h : element.Named) : Named (.array element)
  | set {element : SchemaType} (h : element.Named) : Named (.set element)
  | map {key value : SchemaType} (hk : key.Named) (hv : value.Named) : Named (.map key value)
  | object {fields : List (String × Field)} (h : ∀ f ∈ fields, f.2.type.Named) :
      Named (.object fields)
  | union {members : List SchemaType} (h : ∀ m ∈ members, m.Named) : Named (.union members)
  | default {inner : SchemaType} {value : Constant} (h : inner.Named) (hv : value.Named) :
      Named (.default inner value)
  | optional {inner : SchemaType} (h : inner.Named) : Named (.optional inner)

theorem memberTrees_eq_map (members : List SchemaType) :
    memberTrees members = members.map callTree := by
  induction members with
  | nil => rfl
  | cons m members ih => rw [memberTrees, ih, List.map_cons]

theorem propertyTrees_eq_map (fields : List (String × Field)) :
    propertyTrees fields = fields.map fun f => (f.1, callTree f.2.type) := by
  induction fields with
  | nil => rfl
  | cons f fields ih => rw [propertyTrees, ih, List.map_cons]

theorem renderMembers_eq_map (p : String) (members : List SchemaType) :
    renderMembers p members = members.map (render p) := by
  induction members with
  | nil => rfl
  | cons m members ih => rw [renderMembers, ih, List.map_cons]

theorem renderProperties_eq_map (p : String) (fields : List (String × Field)) :
    renderProperties p fields = fields.map fun f => objectKey f.1 ++ ": " ++ render p f.2.type := by
  induction fields with
  | nil => rfl
  | cons f fields ih => rw [renderProperties, ih, List.map_cons]

theorem sealed_ofMembers {members : List CallTree} (h : ∀ m ∈ members, Sealed m) :
    Sealed (ofMembers members) := by
  unfold ofMembers
  split
  · exact h _ (by simp)
  · exact .union h

theorem sealed_callTree {t : SchemaType} (h : t.Named) : Sealed (callTree t) := by
  induction h with
  | string | number | boolean | void | any | unknown => exact .leaf _
  | @array element _ ih =>
    cases element with
    | union members =>
      rw [callTree] at ih
      rw [callTree]
      cases ih with
      | union hm => exact .array (sealed_ofMembers hm)
    | _ => exact .array ih
  | set _ ih => exact .set ih
  | map _ _ ihk ihv => exact .map ihk ihv
  | @object fields _ ih =>
    rw [callTree, propertyTrees_eq_map]
    apply Sealed.object
    intro p hp
    obtain ⟨f, hf, rfl⟩ := List.mem_map.mp hp
    exact ih f hf
  | @union members _ ih =>
    rw [callTree, memberTrees_eq_map]
    apply Sealed.union
    intro m hm
    obtain ⟨t, ht, rfl⟩ := List.mem_map.mp (List.mem_eraseDups.mp hm)
    exact ih t ht
  | @default inner value _ hv ih => exact .default ih (closed_defaultText inner hv)
  | optional _ ih => exact .optional ih

/-- A qualifier after which a text is read as it is meant: it starts neither like the end of a union
nor, unless it is empty, like the call of an object. -/
structure Readable (p : String) : Prop where
  bracket : ∀ c ∈ p.toList.head?, c ≠ ']'
  object : ∀ rest, startsWith "object" (p ++ rest) = true → p = ""

theorem readable_empty : Readable "" := ⟨by simp, fun _ _ => rfl⟩

variable {p : String}

theorem render_array_readable (hp : Readable p) (element : SchemaType) :
    render p (array element) = p ++ "array(" ++ argumentText p element ++ ")" := by
  rw [render_array]
  split
  · next h =>
    obtain ⟨rest, hrest⟩ := render_front p element
    rw [Bool.and_eq_true, hrest] at h
    simp only [hp.object rest h.2, String.empty_append]
  · rfl

/-- What an array over a union is of, by the distinct trees of the members. -/
theorem argumentText_union {members : List SchemaType} {trees : List CallTree}
    (h : (renderMembers p members).eraseDups = memberTexts p trees) :
    argumentText p (union members) = (ofMembers trees).text p := by
  rw [argumentText, render, h]
  cases trees with
  | nil => rfl
  | cons first rest => cases rest <;> rfl

/-- The texts of members that stay are those of the distinct trees. -/
theorem eraseDups_renderMembers (hp : Readable p) {members : List SchemaType}
    (h : ∀ m ∈ members, m.Named) (he : ∀ m ∈ members, render p m = (callTree m).text p) :
    (renderMembers p members).eraseDups = memberTexts p (memberTrees members).eraseDups := by
  have hmap : members.map (render p) = (members.map callTree).map (CallTree.text p) := by
    rw [List.map_map]
    exact List.map_congr_left he
  rw [renderMembers_eq_map, hmap, memberTexts_eq_map, memberTrees_eq_map]
  apply eraseDups_map_of_injective
  intro a ha b hb
  obtain ⟨m, hm, rfl⟩ := List.mem_map.mp ha
  obtain ⟨n, hn, rfl⟩ := List.mem_map.mp hb
  exact text_injective hp.bracket (sealed_callTree (h m hm)) (sealed_callTree (h n hn))

/-- A type is rendered as its tree. -/
theorem render_eq_text (hp : Readable p) {t : SchemaType} (h : t.Named) :
    render p t = (callTree t).text p := by
  have elements {members : List SchemaType} (hs : sizeOf members < sizeOf t)
      (hm : ∀ m ∈ members, m.Named) :
      (renderMembers p members).eraseDups = memberTexts p (memberTrees members).eraseDups :=
    eraseDups_renderMembers hp hm fun m hmem =>
      have := List.sizeOf_lt_of_mem hmem
      render_eq_text hp (hm m hmem)
  cases h with
  | string | number | boolean | void | any | unknown => rfl
  | @array element h =>
    cases element with
    | union members =>
      cases h with
      | union hm =>
        rw [render_array_readable hp, callTree, CallTree.text,
          argumentText_union (elements (by simp; omega) hm)]
    | _ =>
      rw [render_array_readable hp, argumentText, callTree, CallTree.text, render_eq_text hp h]
      · simp
      · simp
  | set h => rw [render, callTree, CallTree.text, render_eq_text hp h]
  | map hk hv => rw [render, callTree, CallTree.text, render_eq_text hp hk, render_eq_text hp hv]
  | @object fields hf =>
    rw [render, callTree, CallTree.text, renderProperties_eq_map, propertyTrees_eq_map,
      propertyTexts_eq_map, List.map_map]
    congr 2
    apply List.map_congr_left
    intro f hmem
    have := List.sizeOf_lt_of_mem hmem
    have hlt : sizeOf f.2.type < sizeOf f := by
      rcases f with ⟨key, name, type, annotations⟩
      simp only [Prod.mk.sizeOf_spec, FieldOf.mk.sizeOf_spec]
      omega
    rw [render_eq_text hp (hf f hmem)]
    rfl
  | union hm => rw [render, callTree, CallTree.text, elements (by simp) hm]
  | default h _ => rw [render, callTree, CallTree.text, render_eq_text hp h]
  | optional h => rw [render, callTree, CallTree.text, render_eq_text hp h]
termination_by sizeOf t
decreasing_by all_goals (simp_all <;> omega)

end SchemaType

namespace CallTree

/-- The form embedded as an element: a leaf is only its name. -/
def bareText : CallTree → String
  | leaf kind => kind.name
  | t => text "" t

theorem open_mem_text {t : CallTree} (h : Sealed t) : '(' ∈ (text "" t).toList := by
  obtain ⟨a, ms, rfl, ha, -⟩ := exists_call h
  rw [text_marked, call_toList ha]
  simp

theorem open_notMem_name (kind : Leaf) : '(' ∉ kind.name.toList := by
  cases kind <;> decide

theorem bareText_injective {t u : CallTree} (ht : Sealed t) (hu : Sealed u)
    (h : bareText t = bareText u) : t = u := by
  have name_ne {kind : Leaf} {v : CallTree} (hv : Sealed v) : kind.name ≠ text "" v := by
    intro he
    have hopen := open_mem_text hv
    rw [← he] at hopen
    exact open_notMem_name kind hopen
  unfold bareText at h
  split at h
  · split at h
    · rw [leafName_injective h]
    · exact absurd h (name_ne hu)
  · split at h
    · exact absurd h.symm (name_ne ht)
    · exact text_injective SchemaType.readable_empty.bracket ht hu h

end CallTree

namespace SchemaType

open CallTree

theorem renderBare_eq_bareText {t : SchemaType} (h : t.Named) :
    renderBare "" t = bareText (callTree t) := by
  have hr := render_eq_text readable_empty h
  cases t with
  | string | number | boolean | void | any | unknown => rfl
  | array element => cases element <;> exact hr
  | object fields =>
    rw [render, String.empty_append] at hr
    exact hr
  | set _ | map _ _ | union _ | default _ _ | optional _ => exact hr

section Main

variable {t u : SchemaType} {members : List SchemaType}

theorem render_eq_iff (ht : t.Named) (hu : u.Named) :
    render "" t = render "" u ↔ callTree t = callTree u := by
  rw [render_eq_text readable_empty ht, render_eq_text readable_empty hu]
  exact ⟨text_injective readable_empty.bracket (sealed_callTree ht) (sealed_callTree hu),
    congrArg (text "")⟩

theorem renderBare_eq_iff (ht : t.Named) (hu : u.Named) :
    renderBare "" t = renderBare "" u ↔ callTree t = callTree u := by
  rw [renderBare_eq_bareText ht, renderBare_eq_bareText hu]
  exact ⟨bareText_injective (sealed_callTree ht) (sealed_callTree hu), congrArg bareText⟩

theorem keptMembers_sublist (members : List SchemaType) :
    (keptMembers members).Sublist members := eraseDupsBy_sublist _ members

theorem renderMembers_keptMembers (members : List SchemaType) :
    (renderMembers "" members).eraseDups = renderMembers "" (keptMembers members) := by
  rw [renderMembers_eq_map, renderMembers_eq_map, eraseDups_map, keptMembers]

/-- A member is kept, or an earlier one with its text is. -/
theorem exists_kept {m : SchemaType} (hm : m ∈ members) :
    ∃ k ∈ keptMembers members, render "" k = render "" m := by
  have htext : render "" m ∈ (renderMembers "" members).eraseDups := by
    rw [List.mem_eraseDups, renderMembers_eq_map]
    exact List.mem_map_of_mem hm
  rw [renderMembers_keptMembers, renderMembers_eq_map] at htext
  exact List.mem_map.mp htext

/-- Both forms of a text determine the call tree. The members of a union that stay are some of its
members, in order, with every tree among them. -/
theorem render_unambiguous (ht : t.Named) (hu : u.Named) :
    (render "" t = render "" u ↔ callTree t = callTree u) ∧
      (renderBare "" t = renderBare "" u ↔ callTree t = callTree u) ∧
      ∀ members : List SchemaType, (∀ m ∈ members, m.Named) →
        (keptMembers members).Sublist members ∧
          render "" (union members) = unionText "" (renderMembers "" (keptMembers members)) ∧
          ∀ m ∈ members, ∃ k ∈ keptMembers members, callTree k = callTree m := by
  refine ⟨render_eq_iff ht hu, renderBare_eq_iff ht hu, ?_⟩
  intro members hm
  have hsub := keptMembers_sublist members
  refine ⟨hsub, by rw [render, renderMembers_keptMembers], ?_⟩
  intro m hmem
  obtain ⟨k, hk, htext⟩ := exists_kept hmem
  exact ⟨k, hk, (render_eq_iff (hm k (hsub.subset hk)) (hm m hmem)).mp htext⟩

/-- A default that is the name of a constant. -/
def red : SchemaType := default any (.identifier "Color.RED")

/-- A default whose text looks like the end of a call. -/
def ending : SchemaType := default string (.string "'), any()")

theorem render_unambiguous_defaults :
    red.Named ∧ ending.Named ∧
      render "" (array (union [red, red])) = render "" (array red) ∧
      renderBare "" red ≠ renderBare "" ending ∧
      ∀ m ∈ [red, ending, red], ∃ k ∈ keptMembers [red, ending, red], callTree k = callTree m := by
  have hred : red.Named := .default .any (.identifier (by decide))
  have hending : ending.Named := .default .string (.string _)
  have hm : ∀ m ∈ [red, ending, red], m.Named := by simp [hred, hending]
  have hunion : (array (union [red, red])).Named := .array (.union (by simp [hred]))
  have hsame := render_unambiguous hunion (.array hred)
  have hother := render_unambiguous hred hending
  have htrees : callTree red ≠ callTree ending := by simp [red, ending, callTree]
  refine ⟨hred, hending, hsame.1.mpr (by decide +kernel), ?_, (hother.2.2 _ hm).2.2⟩
  intro he
  exact htrees (hother.2.1.mp he)

end Main

end SchemaType
end SchemaGen
