import SchemaGen.Proofs.Emit.Rendering
import SchemaGen.Proofs.Numeric.Numeral

namespace SchemaGen

open Idl Numeric Text

/-- A text without a line break. -/
def OneLine (s : String) : Prop := '\n' ∉ s.toList

theorem oneLine_of_chars {s : String} {test : Char → Bool} (h : ∀ c ∈ s.toList, test c = true)
    (hbreak : test '\n' = false) : OneLine s := by
  intro hn
  rw [h _ hn] at hbreak
  cases hbreak

theorem oneLine_append {s t : String} : OneLine (s ++ t) ↔ OneLine s ∧ OneLine t := by
  rw [OneLine, String.toList_append, List.mem_append, not_or]
  rfl

theorem OneLine.append {s t : String} (hs : OneLine s) (ht : OneLine t) : OneLine (s ++ t) :=
  oneLine_append.mpr ⟨hs, ht⟩

theorem oneLine_joinWith {separator : String} {texts : List String} (hs : OneLine separator)
    (h : ∀ t ∈ texts, OneLine t) : OneLine (joinWith separator texts) := by
  match texts with
  | [] => simp [joinWith, OneLine]
  | [t] => exact h t List.mem_cons_self
  | t :: u :: rest =>
    rw [List.forall_mem_cons] at h
    exact oneLine_append.mpr ⟨oneLine_append.mpr ⟨h.1, hs⟩, oneLine_joinWith hs h.2⟩

theorem oneLine_quote (s : String) : OneLine (quote s) := by
  have hescape (c : Char) : '\n' ∉ escapeChar c := by
    unfold escapeChar
    split
    case h_6 hbreak _ _ => simpa using Ne.symm hbreak
    all_goals decide
  rw [OneLine, quote_toList]
  simp only [List.mem_cons, List.mem_append, List.mem_flatMap, List.not_mem_nil, or_false, not_or,
    not_exists, not_and]
  exact ⟨by decide, fun c _ => hescape c, by decide⟩

theorem oneLine_number (n : Binary64) : OneLine n.text := oneLine_of_chars n.chars_text (by decide)

theorem oneLine_name {name : String} (h : isName name.toList = true) : OneLine name :=
  oneLine_of_chars (isNameChar_of_isName h) (by decide)

theorem oneLine_bareName {name : String} (h : isBareName name = true) : OneLine name :=
  oneLine_of_chars (bareName_chars h) (by decide)

namespace Constant

theorem oneLine_boolText (b : Bool) : OneLine (boolText b) := by
  cases b <;> simp [boolText, OneLine]

theorem oneLine_keyText (key : Constant) {literal : String} (h : OneLine literal) :
    OneLine (keyText key literal) := by
  have hcomputed : OneLine ("[" ++ literal ++ "]") :=
    oneLine_append.mpr ⟨oneLine_append.mpr ⟨by simp [OneLine], h⟩, by simp [OneLine]⟩
  unfold keyText
  dsimp only
  split
  · split
    · next hb => exact oneLine_bareName hb
    · exact oneLine_quote _
  · split
    · next hb => exact oneLine_bareName hb
    · exact hcomputed
  · split
    · exact oneLine_number _
    · exact hcomputed
  · exact hcomputed

theorem oneLine_literal {c : Constant} (h : c.Named) : OneLine c.literal := by
  induction h with
  | bool b => exact oneLine_boolText b
  | number n => exact oneLine_number n
  | string text => exact oneLine_quote text
  | identifier h => exact oneLine_name h
  | null => simp [literal, OneLine]
  | @list items _ ih =>
    rw [literal, literals_eq_map, oneLine_append, oneLine_append]
    refine ⟨⟨by simp [OneLine], oneLine_joinWith (by simp [OneLine]) ?_⟩, by simp [OneLine]⟩
    exact List.forall_mem_map.mpr ih
  | @map pairs _ _ ihk ihv =>
    cases pairs with
    | nil => simp [literal, OneLine]
    | cons p pairs =>
      rw [literal, entryLiterals_eq_map, oneLine_append, oneLine_append]
      · refine ⟨⟨by simp [OneLine], oneLine_joinWith (by simp [OneLine]) ?_⟩, by simp [OneLine]⟩
        refine List.forall_mem_map.mpr fun q hq => ?_
        rw [entryLiteral, oneLine_append, oneLine_append]
        exact ⟨⟨oneLine_keyText q.1 (ihk q hq), by simp [OneLine]⟩, ihv q hq⟩
      · simp

end Constant

namespace SchemaType

theorem oneLine_defaultText (inner : SchemaType) {value : Constant} (h : value.Named) :
    OneLine (defaultText inner value) := by
  unfold defaultText
  split
  · exact oneLine_quote _
  · exact oneLine_number _
  · exact Constant.oneLine_boolText _
  · exact oneLine_number _
  · exact Constant.oneLine_boolText _
  · exact Constant.oneLine_literal h

theorem oneLine_objectKey (name : String) : OneLine (objectKey name) := by
  unfold objectKey
  split
  · next h => exact oneLine_bareName h
  · exact oneLine_quote name

variable {p : String}

theorem oneLine_elementText (hp : OneLine p) (element : SchemaType) {rendered : String}
    (h : OneLine rendered) : OneLine (elementText p element rendered) := by
  unfold elementText
  split
  · exact h
  · split
    · exact oneLine_append.mpr ⟨hp, h⟩
    · exact h

/-- The element of an array over a union is the union, or is part of it. -/
theorem oneLine_unionElementText (hp : OneLine p) {members : List String}
    (h : OneLine (unionText p members)) : OneLine (unionElementText p members) := by
  unfold unionElementText
  split
  · exact oneLine_elementText hp _ h
  · simp only [unionText, oneLine_append] at h
    exact h.1.2
  · exact h

theorem oneLine_render (hp : OneLine p) {t : SchemaType} (h : t.Named) : OneLine (t.render p) := by
  induction h with
  | string | number | boolean | void | any | unknown =>
    rw [render, oneLine_append]
    exact ⟨hp, by simp [OneLine]⟩
  | @array element _ ih =>
    have hclose (s : String) (h : OneLine s) : OneLine (p ++ "array(" ++ s ++ ")") := by
      simp only [oneLine_append]
      exact ⟨⟨⟨hp, by simp [OneLine]⟩, h⟩, by simp [OneLine]⟩
    cases element with
    | union members =>
      rw [render] at ih
      rw [render]
      exact hclose _ (oneLine_unionElementText hp ih)
    | _ => exact hclose _ (oneLine_elementText hp _ ih)
  | set _ ih =>
    simp only [render, oneLine_append]
    exact ⟨⟨⟨hp, by simp [OneLine]⟩, ih⟩, by simp [OneLine]⟩
  | map _ _ ihk ihv =>
    simp only [render, oneLine_append]
    exact ⟨⟨⟨⟨⟨hp, by simp [OneLine]⟩, ihk⟩, by simp [OneLine]⟩, ihv⟩, by simp [OneLine]⟩
  | @object fields _ ih =>
    rw [render, oneLine_append, renderProperties_eq_map]
    refine ⟨hp, ?_⟩
    unfold objectText
    split
    · simp [OneLine]
    · rw [oneLine_append, oneLine_append]
      refine ⟨⟨by simp [OneLine], oneLine_joinWith (by simp [OneLine]) ?_⟩, by simp [OneLine]⟩
      refine List.forall_mem_map.mpr fun f hf => ?_
      rw [oneLine_append, oneLine_append]
      exact ⟨⟨oneLine_objectKey f.1, by simp [OneLine]⟩, ih f hf⟩
  | @union members _ ih =>
    rw [render, unionText, renderMembers_eq_map, oneLine_append, oneLine_append, oneLine_append]
    refine ⟨⟨⟨hp, by simp [OneLine]⟩, oneLine_joinWith (by simp [OneLine]) fun t ht => ?_⟩,
      by simp [OneLine]⟩
    obtain ⟨m, hm, rfl⟩ := List.mem_map.mp (List.mem_eraseDups.mp ht)
    exact ih m hm
  | @default inner value _ hv ih =>
    simp only [render, oneLine_append]
    exact ⟨⟨⟨ih, by simp [OneLine]⟩, oneLine_defaultText inner hv⟩, by simp [OneLine]⟩
  | optional _ ih =>
    rw [render, oneLine_append]
    exact ⟨ih, by simp [OneLine]⟩

theorem oneLine_renderNamed (hp : OneLine p) (name : String) {t : SchemaType} (h : t.Named) :
    OneLine (t.renderNamed p name) := by
  rw [renderNamed, oneLine_append, oneLine_append]
  exact ⟨⟨oneLine_objectKey name, by simp [OneLine]⟩, oneLine_render hp h⟩

end SchemaType
end SchemaGen
