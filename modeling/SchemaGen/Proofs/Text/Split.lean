import SchemaGen.Text.Split

namespace SchemaGen

open Text

theorem splitOn_ne_nil (separator : Char) (cs : List Char) : splitOn separator cs ≠ [] := by
  induction cs with
  | nil => simp [splitOn]
  | cons c cs ih =>
    rw [splitOn]
    split
    · simp
    · split <;> simp

theorem splitOn_append (separator : Char) (front back : List Char) :
    splitOn separator (front ++ separator :: back) =
      splitOn separator front ++ splitOn separator back := by
  induction front with
  | nil => simp [splitOn]
  | cons c front ih =>
    rw [List.cons_append, splitOn, splitOn, ih]
    split
    · rfl
    · cases hs : splitOn separator front with
      | nil => exact absurd hs (splitOn_ne_nil separator front)
      | cons piece pieces => rfl

theorem splitOn_of_not_mem {separator : Char} {cs : List Char} (h : separator ∉ cs) :
    splitOn separator cs = [cs] := by
  induction cs with
  | nil => rfl
  | cons c cs ih =>
    rw [List.mem_cons, not_or] at h
    rw [splitOn, if_neg (Ne.symm h.1), ih h.2]

theorem afterFront?_eq_some {α : Type} [BEq α] [LawfulBEq α] {front text rest : List α} :
    afterFront? front text = some rest ↔ text = front ++ rest := by
  induction front generalizing text with
  | nil => simp [afterFront?, eq_comm]
  | cons a front ih =>
    cases text with
    | nil => simp [afterFront?]
    | cons b text =>
      rw [afterFront?]
      by_cases hab : a = b
      · simp [hab, ih]
      · simp [hab, Ne.symm hab]

variable {separator : Char}

theorem piecesOf_append (front back : String) :
    piecesOf separator (front ++ String.singleton separator ++ back) =
      piecesOf separator front ++ piecesOf separator back := by
  have hcut : (front ++ String.singleton separator ++ back).toList =
      front.toList ++ separator :: back.toList := by simp
  rw [piecesOf, hcut, splitOn_append, List.map_append]
  rfl

theorem piecesOf_single {text : String} (h : separator ∉ text.toList) :
    piecesOf separator text = [text] := by
  rw [piecesOf, splitOn_of_not_mem h, List.map_singleton, String.ofList_toList]

theorem not_mem_of_mem_splitOn {cs piece : List Char} (h : piece ∈ splitOn separator cs) :
    separator ∉ piece := by
  induction cs generalizing piece with
  | nil => simp_all [splitOn]
  | cons c cs ih =>
    rw [splitOn] at h
    split at h
    · rcases List.mem_cons.mp h with rfl | h
      · exact List.not_mem_nil
      · exact ih h
    · next hc =>
      cases hs : splitOn separator cs with
      | nil => exact absurd hs (splitOn_ne_nil separator cs)
      | cons first pieces =>
        rw [hs] at h ih
        rcases List.mem_cons.mp h with rfl | h
        · exact List.not_mem_cons_of_ne_of_not_mem (Ne.symm hc) (ih List.mem_cons_self)
        · exact ih (List.mem_cons_of_mem first h)

theorem not_mem_of_mem_piecesOf {text piece : String} (h : piece ∈ piecesOf separator text) :
    separator ∉ piece.toList := by
  obtain ⟨cs, hcs, rfl⟩ := List.mem_map.mp h
  rw [String.toList_ofList]
  exact not_mem_of_mem_splitOn hcs

theorem joinWith_cons_of_ne_nil {text : String} {texts : List String} (h : texts ≠ [])
    (mark : String) :
    joinWith mark (text :: texts) = text ++ mark ++ joinWith mark texts := by
  cases texts with
  | nil => exact absurd rfl h
  | cons t texts => rfl

/-- Texts joined by the separator have the pieces of each. -/
theorem piecesOf_joinWith {texts : List String} (h : texts ≠ []) :
    piecesOf separator (joinWith (String.singleton separator) texts) =
      texts.flatMap (piecesOf separator) := by
  induction texts with
  | nil => exact absurd rfl h
  | cons t texts ih =>
    cases texts with
    | nil => simp [joinWith]
    | cons u texts =>
      rw [joinWith_cons_of_ne_nil (by simp), piecesOf_append, ih (by simp)]
      rfl

/-- Text in front of the first of several texts stands in front of all. -/
theorem joinWith_append_front (mark front text : String) (texts : List String) :
    joinWith mark ((front ++ text) :: texts) = front ++ joinWith mark (text :: texts) := by
  cases texts with
  | nil => rfl
  | cons t texts => simp only [joinWith, String.append_assoc]

/-- The same text in front of each of several texts goes into what stands between them. -/
theorem joinWith_map_front (mark front : String) {texts : List String} (h : texts ≠ []) :
    joinWith mark (texts.map (front ++ ·)) = front ++ joinWith (mark ++ front) texts := by
  induction texts with
  | nil => exact absurd rfl h
  | cons t texts ih =>
    cases texts with
    | nil => rfl
    | cons u texts =>
      rw [List.map_cons, joinWith_cons_of_ne_nil (by simp), ih (by simp), joinWith]
      simp only [String.append_assoc]

/-- Text behind the last of several texts stands behind all. -/
theorem joinWith_append_back (mark back text : String) (texts : List String) :
    joinWith mark (texts ++ [text]) ++ back = joinWith mark (texts ++ [text ++ back]) := by
  induction texts with
  | nil => rfl
  | cons t texts ih =>
    rw [List.cons_append, List.cons_append, joinWith_cons_of_ne_nil (by simp),
      joinWith_cons_of_ne_nil (by simp), ← ih, String.append_assoc]

theorem joinWith_piecesOf (separator : Char) (text : String) :
    joinWith (String.singleton separator) (piecesOf separator text) = text := by
  have hchars (cs : List Char) :
      joinWith (String.singleton separator) ((splitOn separator cs).map String.ofList) =
        String.ofList cs := by
    induction cs with
    | nil => rfl
    | cons c cs ih =>
      have hfront (cs : List Char) :
          String.ofList (c :: cs) = String.singleton c ++ String.ofList cs :=
        String.toList_inj.mp (by simp)
      have hne := splitOn_ne_nil separator cs
      rw [splitOn]
      split
      · next hc =>
        rw [List.map_cons, joinWith_cons_of_ne_nil (by simpa using hne), ih, hfront, hc]
        simp
      · cases hs : splitOn separator cs with
        | nil => exact absurd hs hne
        | cons piece pieces =>
          rw [hs, List.map_cons] at ih
          rw [List.map_cons, hfront, joinWith_append_front, ih, hfront]
  rw [piecesOf, hchars, String.ofList_toList]

end SchemaGen
