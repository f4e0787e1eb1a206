import SchemaGen.Proofs.Emit.Rendering
import SchemaGen.Proofs.Schema.Firsts

namespace SchemaGen

open Text

section Firsts

variable {α : Type} [BEq α] {firsts others items : List α}

/-- A row of all that occurs in another one, in the order of the first places there. No two of its
items have the same place, so each stands once. -/
structure ListsFirsts (firsts items : List α) : Prop where
  mem_iff (a : α) : a ∈ firsts ↔ a ∈ items
  ordered : firsts.Pairwise fun a b => items.idxOf a < items.idxOf b

theorem ListsFirsts.nodup (h : ListsFirsts firsts items) : firsts.Nodup := by
  refine h.ordered.imp ?_
  rintro a _ hlt rfl
  exact Nat.lt_irrefl _ hlt

/-- The order leaves one such row at most. -/
theorem ListsFirsts.unique (h : ListsFirsts firsts items) (k : ListsFirsts others items) :
    firsts = others := by
  have hmem (a : α) : a ∈ firsts ↔ a ∈ others := (h.mem_iff a).trans (k.mem_iff a).symm
  have hsame : firsts.Perm others := (List.perm_ext_iff_of_nodup h.nodup k.nodup).mpr hmem
  exact hsame.eq_of_pairwise (fun _ _ _ _ hab hba => absurd hba (Nat.lt_asymm hab)) h.ordered
    k.ordered

variable [LawfulBEq α]

/-- What stays without repetitions is kept item by item, each unless a kept one equals it. -/
theorem eraseDups_eq_firstsBy (items : List α) :
    items.eraseDups = Table.firstsBy (fun a b => b == a) items := by
  induction items using List.reverseRecOn with
  | nil => rfl
  | append_singleton items a ih =>
    have hany : (items.eraseDups.any (a == ·)) = items.contains a := by
      rw [List.any_beq, Bool.eq_iff_iff, List.contains_iff_mem, List.contains_iff_mem,
        List.mem_eraseDups]
    rw [Table.firstsBy_concat, ← ih, hany, List.eraseDups_append]
    by_cases h : a ∈ items
    · simp [List.removeAll, h]
    · simp [List.removeAll, h, List.eraseDups_cons]

theorem listsFirsts_eraseDups (items : List α) : ListsFirsts items.eraseDups items where
  mem_iff _ := List.mem_eraseDups
  ordered := by
    -- The kept item stands on the right of the test, as in the search for the place of an item.
    have hs : Equivalence fun a b : α => (b == a) = true :=
      ⟨fun _ => beq_self_eq_true _, fun h => BEq.symm h, fun h k => BEq.trans k h⟩
    rw [eraseDups_eq_firstsBy]
    exact Table.pairwise_findIdx_firstsBy hs

end Firsts

namespace SchemaType

section Added

variable (p : String) (members more : List SchemaType)

/-- Some further member has a text that none of the members has. -/
def AddsText : Prop := ∃ m ∈ more, ∀ k ∈ members, render p m ≠ render p k

instance : Decidable (AddsText p members more) :=
  inferInstanceAs (Decidable (∃ m ∈ more, ∀ k ∈ members, render p m ≠ render p k))

/-- The texts that further members add, each once. -/
def addedTexts : List String :=
  ((renderMembers p more).removeAll (renderMembers p members)).eraseDups

theorem eraseDups_renderMembers_append :
    (renderMembers p (members ++ more)).eraseDups =
      (renderMembers p members).eraseDups ++ addedTexts p members more := by
  rw [renderMembers_eq_map, List.map_append, List.eraseDups_append, addedTexts,
    renderMembers_eq_map, renderMembers_eq_map]

variable {p members more}

theorem mem_addedTexts {text : String} :
    text ∈ addedTexts p members more ↔
      (∃ m ∈ more, render p m = text) ∧ ∀ k ∈ members, render p k ≠ text := by
  rw [addedTexts, List.mem_eraseDups, renderMembers_eq_map, renderMembers_eq_map]
  simp [List.removeAll]

theorem addedTexts_ne_nil_iff : addedTexts p members more ≠ [] ↔ AddsText p members more := by
  constructor
  · intro h
    obtain ⟨text, htext⟩ := List.exists_mem_of_ne_nil _ h
    obtain ⟨⟨m, hm, rfl⟩, hnew⟩ := mem_addedTexts.mp htext
    exact ⟨m, hm, fun k hk => (hnew k hk).symm⟩
  · rintro ⟨m, hm, hnew⟩
    exact List.ne_nil_of_mem (mem_addedTexts.mpr ⟨⟨m, hm, rfl⟩, fun k hk => (hnew k hk).symm⟩)

theorem render_ne_empty (p : String) (t : SchemaType) : render p t ≠ "" := by
  intro h
  cases t with
  | array element => simp [render_array] at h
  | object fields =>
    rw [render, objectText] at h
    split at h <;> simp at h
  | _ => simp [render, unionText] at h

theorem empty_notMem_addedTexts : "" ∉ addedTexts p members more := by
  intro h
  obtain ⟨⟨m, -, hm⟩, -⟩ := mem_addedTexts.mp h
  exact render_ne_empty p m hm

end Added

section Lengths

variable {front back : List String} (hb : back ≠ []) (hne : "" ∉ back)
include hb hne

/-- A row grows with texts behind it. Behind an empty row no comma is added, only the texts. -/
theorem length_joinWith_lt (front : List String) :
    (joinWith ", " front).length < (joinWith ", " (front ++ back)).length := by
  have hlength (t : String) (texts : List String) :
      (joinWith ", " (t :: texts)).length = t.length + (CallTree.rowTail texts).length := by
    rw [← String.length_toList, CallTree.joinWith_toList, List.length_append, String.length_toList]
  obtain ⟨t, rest, rfl⟩ := List.exists_cons_of_ne_nil hb
  cases front with
  | nil =>
    have ht : t ≠ "" := fun he => hne (he ▸ List.mem_cons_self)
    have hpos : 0 < t.length := Nat.pos_of_ne_zero fun h0 => ht (String.length_eq_zero_iff.mp h0)
    rw [List.nil_append, hlength, joinWith, String.length_empty]
    omega
  | cons s front =>
    rw [List.cons_append, hlength, hlength]
    simp [CallTree.rowTail]

theorem length_unionText_lt (p : String) (front : List String) :
    (unionText p front).length < (unionText p (front ++ back)).length := by
  have hrow := length_joinWith_lt hb hne front
  simp only [unionText, String.length_append]
  omega

/-- In an array a single text stands bare, and with others behind it as a member of a union. -/
theorem length_unionElementText_lt (p : String) (hf : front ≠ []) :
    (unionElementText p front).length < (unionElementText p (front ++ back)).length := by
  match front with
  | [] => exact absurd rfl hf
  | [only] =>
    have hunion : unionElementText p ([only] ++ back) = unionText p ([only] ++ back) := by
      obtain ⟨t, rest, rfl⟩ := List.exists_cons_of_ne_nil hb
      rfl
    have hrow := length_joinWith_lt hb hne [only]
    rw [joinWith] at hrow
    rw [hunion, unionElementText]
    simp only [unionText, String.length_append]
    omega
  | s :: t :: front => exact length_unionText_lt hb hne p (s :: t :: front)

end Lengths

section Further

variable {p : String} {members more : List SchemaType}

theorem render_union_append (p : String) (members more : List SchemaType) :
    render p (union (members ++ more)) =
      unionText p ((renderMembers p members).eraseDups ++ addedTexts p members more) := by
  rw [render, eraseDups_renderMembers_append]

theorem render_array_union_append (p : String) (members more : List SchemaType) :
    render p (array (union (members ++ more))) = p ++ "array(" ++
      unionElementText p ((renderMembers p members).eraseDups ++ addedTexts p members more) ++
        ")" := by
  rw [render, eraseDups_renderMembers_append]

theorem render_append_of_not_addsText (h : ¬ AddsText p members more) :
    render p (union (members ++ more)) = render p (union members) ∧
      render p (array (union (members ++ more))) = render p (array (union members)) := by
  have hnone : addedTexts p members more = [] :=
    Decidable.not_not.mp fun hne => h (addedTexts_ne_nil_iff.mp hne)
  rw [render_union_append, render_array_union_append, hnone, List.append_nil]
  exact ⟨rfl, rfl⟩

theorem render_union_append_ne (h : AddsText p members more) :
    render p (union (members ++ more)) ≠ render p (union members) := by
  have hlt := length_unionText_lt (addedTexts_ne_nil_iff.mpr h) empty_notMem_addedTexts p
    (renderMembers p members).eraseDups
  intro he
  rw [← render_union_append, he, render] at hlt
  exact Nat.lt_irrefl _ hlt

theorem render_array_union_append_ne (hm : members ≠ []) (h : AddsText p members more) :
    render p (array (union (members ++ more))) ≠ render p (array (union members)) := by
  obtain ⟨m, rest, rfl⟩ := List.exists_cons_of_ne_nil hm
  have hlt := length_unionElementText_lt (addedTexts_ne_nil_iff.mpr h) empty_notMem_addedTexts p
    (eraseDups_renderMembers_cons p m rest)
  intro he
  have hlength := congrArg String.length he
  rw [render_array_union_append, render] at hlength
  simp only [String.length_append] at hlength
  omega

end Further

/-- Several texts are a union in an array too. -/
theorem unionElementText_of_ne (p : String) {texts : List String} {s t : String} (hs : s ∈ texts)
    (ht : t ∈ texts) (hne : s ≠ t) : unionElementText p texts = unionText p texts := by
  match texts with
  | [] => exact absurd hs List.not_mem_nil
  | [only] => exact absurd ((List.mem_singleton.mp hs).trans (List.mem_singleton.mp ht).symm) hne
  | _ :: _ :: _ => rfl

theorem render_array_union_of_ne {p : String} {members : List SchemaType} {a b : SchemaType}
    (ha : a ∈ members) (hb : b ∈ members) (hne : render p a ≠ render p b) :
    render p (array (union members)) = p ++ "array(" ++ render p (union members) ++ ")" := by
  have hmem {m : SchemaType} (hm : m ∈ members) :
      render p m ∈ (renderMembers p members).eraseDups := by
    rw [List.mem_eraseDups, renderMembers_eq_map]
    exact List.mem_map_of_mem hm
  rw [render, render, unionElementText_of_ne p (hmem ha) (hmem hb) hne]

/-- Whatever the qualifier, a union prints the texts of its members, each once and in the order in
which they occur first, and an array over it is applied to what is printed if there are two texts or
more. Further members change what a union prints exactly if one of them has a text that is new. Only
then do they change the array, and they do unless there were no members before. -/
theorem union_prints_firsts (p : String) (members more : List SchemaType) :
    (∃! texts, ListsFirsts texts (members.map (render p)) ∧
      render p (union members) = unionText p texts) ∧
    (∀ a ∈ members, ∀ b ∈ members, render p a ≠ render p b →
      render p (array (union members)) = p ++ "array(" ++ render p (union members) ++ ")") ∧
    (render p (union (members ++ more)) ≠ render p (union members) ↔ AddsText p members more) ∧
    (render p (array (union (members ++ more))) ≠ render p (array (union members)) →
      AddsText p members more) ∧
    (members ≠ [] → AddsText p members more →
      render p (array (union (members ++ more))) ≠ render p (array (union members))) := by
  refine ⟨?firsts, fun a ha b hb => render_array_union_of_ne ha hb, ?union, ?array,
    render_array_union_append_ne⟩
  case firsts =>
    have hfirsts := listsFirsts_eraseDups (members.map (render p))
    refine ⟨_, ⟨hfirsts, by rw [render, renderMembers_eq_map]⟩, ?_⟩
    intro texts htexts
    exact htexts.1.unique hfirsts
  case union =>
    refine ⟨fun hne => ?_, render_union_append_ne⟩
    by_contra h
    exact hne (render_append_of_not_addsText h).1
  case array =>
    intro hne
    by_contra h
    exact hne (render_append_of_not_addsText h).2

/-- Members of a union, two of them unions with other members and the same text. -/
def nestedUnions : List SchemaType :=
  [union [string, union [number, number]], string, union [string, union [number], string]]

theorem union_prints_firsts_nested :
    (∃! texts, ListsFirsts texts (nestedUnions.map (render "z.")) ∧
        render "z." (union nestedUnions) = unionText "z." texts) ∧
      render "z." (union nestedUnions) =
        "z.union([z.union([z.string(), z.union([z.number()])]), z.string()])" ∧
      render "z." (array (union nestedUnions)) =
        "z.array(" ++ render "z." (union nestedUnions) ++ ")" ∧
      ¬ AddsText "z." nestedUnions nestedUnions ∧
      render "z." (union (nestedUnions ++ nestedUnions)) = render "z." (union nestedUnions) ∧
      render "z." (array (union (nestedUnions ++ nestedUnions))) =
        render "z." (array (union nestedUnions)) ∧
      nestedUnions ≠ [] ∧ AddsText "z." nestedUnions [string, union nestedUnions] ∧
      render "z." (array (union (nestedUnions ++ [string, union nestedUnions]))) ≠
        render "z." (array (union nestedUnions)) := by
  obtain ⟨hfirsts, hseveral, hunion, harray, -⟩ :=
    union_prints_firsts "z." nestedUnions nestedUnions
  obtain ⟨-, -, -, -, hgrows⟩ :=
    union_prints_firsts "z." nestedUnions [string, union nestedUnions]
  have hsame : ¬ AddsText "z." nestedUnions nestedUnions := by decide +kernel
  have hadds : AddsText "z." nestedUnions [string, union nestedUnions] := by decide +kernel
  have hne : nestedUnions ≠ [] := List.cons_ne_nil _ _
  have htwo : render "z." string ≠ render "z." (union [string, union [number, number]]) := by
    decide +kernel
  refine ⟨hfirsts, by decide +kernel, hseveral _ ?_ _ ?_ htwo, hsame,
    Decidable.not_not.mp fun h => hsame (hunion.mp h),
    Decidable.not_not.mp fun h => hsame (harray h), hne, hadds, hgrows hne hadds⟩
  · simp [nestedUnions]
  · simp [nestedUnions]

/-- The first member has a new text, which an array does not show if it is a union of nothing. -/
example : AddsText "" [] [union []] ∧
    render "" (array (union ([] ++ [union []]))) = render "" (array (union [])) := by
  decide +kernel

end SchemaType
end SchemaGen
