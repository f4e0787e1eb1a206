import SchemaGen.Emit.Render

namespace SchemaGen

open Text

/-- A word without a point that a qualified text starts with stands in the namespace. -/
theorem startsWith_qualified {word : String} (hw : '.' ∉ word.toList) (ns rest : String) :
    startsWith word (ns ++ "." ++ rest) = startsWith word ns := by
  have htext : (ns ++ "." ++ rest).toList = ns.toList ++ '.' :: rest.toList := by simp
  rw [Bool.eq_iff_iff, startsWith, startsWith, List.isPrefixOf_iff_prefix,
    List.isPrefixOf_iff_prefix, htext]
  constructor
  · rintro ⟨tail, he⟩
    rcases List.append_eq_append_iff.mp he with ⟨as, hns, -⟩ | ⟨as, hword, hrest⟩
    · exact ⟨as, hns.symm⟩
    · cases as with
      | nil =>
        rw [List.append_nil] at hword
        exact hword ▸ List.prefix_refl _
      | cons c as =>
        obtain rfl : '.' = c := (List.cons.inj hrest).1
        exact absurd (hword ▸ List.mem_append_right _ List.mem_cons_self) hw
  · exact fun h => h.trans (List.prefix_append _ _)

theorem qualifier_eq (ns : String) : ns = "" ∨ ns ≠ "" ∧ qualifier ns = ns ++ "." := by
  unfold qualifier
  split
  · next h => exact .inl (String.isEmpty_iff.mp h)
  · next h => exact .inr ⟨fun he => h (String.isEmpty_iff.mpr he), rfl⟩

namespace SchemaType

/-- What an array is applied to: the only text among the members of a union, else the text of the
element. -/
def argumentText (p : String) : SchemaType → String
  | union members =>
    match (renderMembers p members).eraseDups with
    | [only] => only
    | _ => render p (union members)
  | element => render p element

/-- The elements whose text is looked at before an array takes it: neither leaves nor objects nor
unions that have members. -/
def isLookedAt : SchemaType → Bool
  | object _ => false
  | union members => members.isEmpty
  | element => !element.isLeaf

theorem eraseDups_renderMembers_cons (p : String) (m : SchemaType) (rest : List SchemaType) :
    (renderMembers p (m :: rest)).eraseDups ≠ [] := by
  rw [renderMembers, List.eraseDups_cons]
  exact List.cons_ne_nil _ _

/-- An array is its constructor applied to what it is of, with the qualifier again before an element
that is looked at and found to start like an object call. -/
theorem render_array (p : String) (element : SchemaType) :
    render p (array element) = p ++ "array(" ++
      (if element.isLookedAt && startsWith "object" (render p element) then
        p ++ argumentText p element else argumentText p element) ++ ")" := by
  cases element with
  | string | number | boolean | void | any | unknown => rfl
  | array _ | set _ | map _ _ | object _ | default _ _ | optional _ => rfl
  | union members =>
    cases members with
    | nil => rfl
    | cons m rest =>
      have hne := eraseDups_renderMembers_cons p m rest
      rw [render, argumentText, render]
      generalize (renderMembers p (m :: rest)).eraseDups = texts at hne
      match texts with
      | [] => exact absurd rfl hne
      | [only] => rfl
      | _ :: _ :: _ => rfl

/-- A type is rendered with the qualifier in front. -/
theorem render_front (p : String) (t : SchemaType) : ∃ rest, render p t = p ++ rest := by
  match t with
  | string | number | boolean | void | any | unknown => exact ⟨_, rfl⟩
  | array element =>
    rw [render_array, String.append_assoc, String.append_assoc]
    exact ⟨_, rfl⟩
  | set element =>
    rw [render, String.append_assoc, String.append_assoc]
    exact ⟨_, rfl⟩
  | map key value =>
    simp only [render, String.append_assoc]
    exact ⟨_, rfl⟩
  | object fields => exact ⟨_, rfl⟩
  | union members =>
    simp only [render, unionText, String.append_assoc]
    exact ⟨_, rfl⟩
  | default inner value =>
    obtain ⟨rest, h⟩ := render_front p inner
    simp only [render, h, String.append_assoc]
    exact ⟨_, rfl⟩
  | optional inner =>
    obtain ⟨rest, h⟩ := render_front p inner
    rw [render, h, String.append_assoc]
    exact ⟨_, rfl⟩

/-- A rendered type starts like an object call in a namespace that does so. -/
theorem startsWith_render {ns : String} (hns : ns ≠ "") (t : SchemaType) :
    startsWith "object" (render (qualifier ns) t) = startsWith "object" ns := by
  have hq : qualifier ns = ns ++ "." := (qualifier_eq ns).resolve_left hns |>.2
  obtain ⟨rest, h⟩ := render_front (qualifier ns) t
  rw [h, hq, startsWith_qualified (by decide)]

/-- An array is its constructor applied to the text of its element, or to the only text among the
members of a union, except in a namespace whose name starts with `object`: there, and only there, an
element that is looked at is qualified twice. -/
theorem render_array_iff (ns : String) (element : SchemaType) :
    (render (qualifier ns) (array element) =
        qualifier ns ++ "array(" ++ argumentText (qualifier ns) element ++ ")" ↔
      (startsWith "object" ns && element.isLookedAt) = false) ∧
    render (qualifier ns) (array element) = qualifier ns ++ "array(" ++
      (if startsWith "object" ns && element.isLookedAt then
        qualifier ns ++ argumentText (qualifier ns) element
      else argumentText (qualifier ns) element) ++ ")" := by
  rcases qualifier_eq ns with rfl | ⟨hns, hq⟩
  · have hno : startsWith "object" "" = false := by decide
    have hempty : qualifier "" = "" := rfl
    simp [render_array, hno, hempty]
  · have htwice : qualifier ns ++ argumentText (qualifier ns) element ≠
        argumentText (qualifier ns) element := by
      intro he
      have hlength := congrArg String.length he
      rw [String.length_append, hq, String.length_append] at hlength
      simp at hlength
    have htext := render_array (qualifier ns) element
    rw [startsWith_render hns, Bool.and_comm] at htext
    refine ⟨?_, htext⟩
    rw [htext]
    cases startsWith "object" ns && element.isLookedAt with
    | false => simp
    | true => simp [htwice]

/-- A set is qualified twice in an array of a namespace that starts with `object`. -/
theorem render_array_objects :
    render (qualifier "objects") (array (set string)) =
        "objects.array(objects.objects.set(objects.string()))" ∧
      render (qualifier "objects") (array (set string)) ≠ qualifier "objects" ++ "array(" ++
        argumentText (qualifier "objects") (set string) ++ ")" := by
  decide +kernel

end SchemaType
end SchemaGen
