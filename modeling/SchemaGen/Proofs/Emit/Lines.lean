import SchemaGen.Emit.Exports
import SchemaGen.Proofs.Emit.OneLine
import SchemaGen.Proofs.Text.Split

namespace SchemaGen

open Text

variable {keyword : String}

theorem declaredNames_append (front back : List Char) :
    declaredNames keyword (front ++ '\n' :: back) =
      declaredNames keyword front ++ declaredNames keyword back := by
  rw [declaredNames, splitOn_append, List.filterMap_append]
  rfl

theorem declaredNames_line {line : List Char} (h : '\n' ∉ line) :
    declaredNames keyword line =
      ((afterFront? keyword.toList line).map fun rest =>
        String.ofList (rest.takeWhile isIdentifierRest)).toList := by
  rw [declaredNames, splitOn_of_not_mem h, List.filterMap_cons]
  cases afterFront? keyword.toList line <;> rfl

/-- A line that declares a name after the keyword. -/
theorem declaredNames_declaration {name : String} {rest : List Char} (hk : '\n' ∉ keyword.toList)
    (hn : ∀ c ∈ name.toList, isIdentifierRest c = true) (hr : '\n' ∉ rest) :
    declaredNames keyword (keyword.toList ++ (name.toList ++ ' ' :: rest)) = [name] := by
  have hname : '\n' ∉ name.toList := fun h => absurd (hn _ h) (by decide)
  have hline : '\n' ∉ keyword.toList ++ (name.toList ++ ' ' :: rest) := by
    simp [hk, hname, hr]
  have hafter := afterFront?_eq_some.mpr
    (rfl : keyword.toList ++ (name.toList ++ ' ' :: rest) =
      keyword.toList ++ (name.toList ++ ' ' :: rest))
  have hstop : Idl.Stops isIdentifierRest (' ' :: rest) := by
    simp [Idl.Stops, isIdentifierRest]
  rw [declaredNames_line hline, hafter, Option.map_some, Idl.takeWhile_append_stop hn hstop,
    String.ofList_toList]
  rfl

/-- A text none of whose lines declares anything, whatever its last line goes on with. -/
def Silent (keyword : String) (text : List Char) : Prop :=
  ∀ rest, '\n' ∉ rest → declaredNames keyword (text ++ rest) = []

theorem silent_line {line : List Char} (h : '\n' ∉ line)
    (hs : ∀ rest tail, line ++ rest ≠ keyword.toList ++ tail) : Silent keyword line := by
  intro rest hr
  have hline : '\n' ∉ line ++ rest := by simp [h, hr]
  rw [declaredNames_line hline]
  cases ha : afterFront? keyword.toList (line ++ rest) with
  | none => rfl
  | some tail => exact absurd (afterFront?_eq_some.mp ha) (hs rest tail)

/-- A line that starts with another character than the keyword. -/
theorem silent_front {c d : Char} {cs ds : List Char} (hk : keyword.toList = c :: ds) (hd : d ≠ c)
    (h : '\n' ∉ d :: cs) : Silent keyword (d :: cs) := by
  refine silent_line h fun rest tail he => ?_
  rw [hk] at he
  exact hd (List.cons.inj he).1

theorem Silent.append {front back mark : List Char} (hf : Silent keyword front)
    (hm : '\n' ∉ mark) (hb : Silent keyword back) :
    Silent keyword (front ++ mark ++ '\n' :: back) := by
  intro rest hr
  rw [List.append_assoc, List.cons_append, declaredNames_append, hf mark hm, hb rest hr]
  rfl

/-- Silent lines with a mark and a line break between them. -/
theorem silent_joinWith {mark : String} (hm : OneLine mark) {texts : List String}
    (h : ∀ t ∈ texts, Silent keyword t.toList) (hne : texts ≠ []) :
    Silent keyword (joinWith (mark ++ "\n") texts).toList := by
  match texts with
  | [] => exact absurd rfl hne
  | [t] => exact h t List.mem_cons_self
  | t :: u :: rest =>
    rw [List.forall_mem_cons] at h
    have hrest := silent_joinWith hm h.2 (by simp)
    have hjoin := h.1.append hm hrest
    rw [joinWith]
    simpa using hjoin

theorem declaredNames_nil (hk : keyword.toList ≠ []) : declaredNames keyword [] = [] := by
  rw [declaredNames_line List.not_mem_nil]
  cases ha : afterFront? keyword.toList [] with
  | none => rfl
  | some rest =>
    have he := afterFront?_eq_some.mp ha
    exact absurd (List.append_eq_nil_iff.mp he.symm).1 hk

theorem Silent.names {text : List Char} (h : Silent keyword text) :
    declaredNames keyword text = [] := by
  have hr := h [] List.not_mem_nil
  rwa [List.append_nil] at hr

/-- Texts with a blank line between them declare what each of them does. -/
theorem declaredNames_paragraphs (hk : keyword.toList ≠ []) (texts : List String) :
    declaredNames keyword (joinWith "\n\n" texts).toList =
      texts.flatMap fun t => declaredNames keyword t.toList := by
  match texts with
  | [] => exact declaredNames_nil hk
  | [t] => simp [joinWith]
  | t :: u :: rest =>
    have hrest := declaredNames_paragraphs hk (u :: rest)
    have hcut : (joinWith "\n\n" (t :: u :: rest)).toList =
        t.toList ++ '\n' :: ([] ++ '\n' :: (joinWith "\n\n" (u :: rest)).toList) := by
      simp [joinWith]
    rw [hcut, declaredNames_append, declaredNames_append, declaredNames_nil hk, hrest,
      List.nil_append]
    rfl

end SchemaGen
