import SchemaGen.Emit.CallTree
import SchemaGen.Proofs.Idl.Lexeme
import SchemaGen.Proofs.Numeric.Digits
import SchemaGen.Proofs.Text.Quoted

namespace SchemaGen

open Text

/-- The text up to the first closing parenthesis outside quotes. The flag tells whether the text
starts between quotes. -/
def argument : Bool → List Char → List Char
  | _, [] => []
  | true, '\\' :: c :: cs => '\\' :: c :: argument true cs
  | true, c :: cs => c :: argument (c != '\'') cs
  | false, c :: cs => if c = ')' then [] else c :: argument (c == '\'') cs

/-- A text that is passed as a whole. -/
def Closed (cs : List Char) : Prop :=
  ∀ rest, argument false (cs ++ rest) = cs ++ argument false rest

/-- A character that neither quotes nor closes. -/
def isPlain (c : Char) : Bool := c != ')' && c != '\''

theorem Closed.append {cs ds : List Char} (h : Closed cs) (k : Closed ds) : Closed (cs ++ ds) := by
  intro rest
  rw [List.append_assoc, h, k, List.append_assoc]

theorem closed_nil : Closed [] := fun _ => rfl

theorem closed_plain {cs : List Char} (h : cs.all isPlain = true) : Closed cs := by
  induction cs with
  | nil => exact closed_nil
  | cons c cs ih =>
    simp only [List.all_cons, isPlain, Bool.and_eq_true, bne_iff_ne, ne_eq] at h
    obtain ⟨⟨hclose, hquote⟩, hrest⟩ := h
    intro rest
    have hc : (c == '\'') = false := by simpa using hquote
    rw [List.cons_append, argument, if_neg hclose, hc, ih hrest, List.cons_append]

/-- A closed argument and what follows its parenthesis are told apart. -/
theorem Closed.unique {cs ds rest tail : List Char} (h : Closed cs) (k : Closed ds)
    (he : cs ++ ')' :: rest = ds ++ ')' :: tail) : cs = ds ∧ rest = tail := by
  have ha := congrArg (argument false) he
  rw [h, k] at ha
  simp only [argument, if_true, List.append_nil] at ha
  subst ha
  simpa using he

theorem argument_escapeChar (c : Char) (cs : List Char) :
    argument true (escapeChar c ++ cs) = escapeChar c ++ argument true cs := by
  unfold escapeChar
  split
  case h_6 hs hq _ _ _ =>
    rw [List.singleton_append, argument]
    · have hc : (c != '\'') = true := bne_iff_ne.mpr hq
      rw [hc, List.singleton_append]
    · exact fun d ds he _ => hs he
  all_goals rfl

theorem argument_escape (cs rest : List Char) :
    argument true (cs.flatMap escapeChar ++ '\'' :: rest) =
      cs.flatMap escapeChar ++ '\'' :: argument false rest := by
  induction cs with
  | nil => rfl
  | cons c cs ih =>
    rw [List.flatMap_cons, List.append_assoc, argument_escapeChar, ih, List.append_assoc]

theorem closed_quote (s : String) : Closed (quote s).toList := by
  intro rest
  rw [quote_toList]
  have h := argument_escape s.toList rest
  simp [argument, h]

theorem closed_joinWith {separator : String} {texts : List String}
    (hs : Closed separator.toList) (h : ∀ t ∈ texts, Closed t.toList) :
    Closed (joinWith separator texts).toList := by
  match texts with
  | [] => exact closed_nil
  | [t] => exact h t (by simp)
  | t :: u :: rest =>
    have hrest := closed_joinWith hs fun x hx => h x (List.mem_cons_of_mem t hx)
    rw [joinWith, String.toList_append, String.toList_append]
    exact ((h t (by simp)).append hs).append hrest

end SchemaGen
