import SchemaGen.Text.Quoted

namespace SchemaGen

open Text

theorem replaceChar_flatMap {α : Type} (c : Char) (other : List Char) (f : α → List Char)
    (as : List α) :
    replaceChar c other (as.flatMap f) = as.flatMap fun a => replaceChar c other (f a) :=
  List.flatMap_assoc

theorem replaceChar_singleton {c d : Char} (h : d ≠ c) (other : List Char) :
    replaceChar c other [d] = [d] := by
  simp [replaceChar, h]

theorem replaceChar_cons {c d : Char} (h : d ≠ c) (other cs : List Char) :
    replaceChar c other (d :: cs) = d :: replaceChar c other cs := by
  simp [replaceChar, h]

theorem replacePair_pair (c d : Char) (other cs : List Char) :
    replacePair c d other (c :: d :: cs) = other ++ replacePair c d other cs := by
  simp [replacePair]

theorem replacePair_cons {c d a : Char} {cs : List Char}
    (h : ∀ rest, a = c → cs = d :: rest → False) (other : List Char) :
    replacePair c d other (a :: cs) = a :: replacePair c d other cs := by
  cases cs with
  | nil => rfl
  | cons b rest =>
    have hpair : ¬ (a = c ∧ b = d) := by
      intro hab
      exact h rest hab.1 (by rw [hab.2])
    rw [replacePair, if_neg hpair]

theorem escape_toList (s : String) : (escape s).toList = s.toList.flatMap escapeChar := by
  have hchar (c : Char) : replaceChar '\t' ['\\', 't'] (replaceChar '\r' ['\\', 'r']
      (replaceChar '\n' ['\\', 'n'] (replaceChar '\'' ['\\', '\'']
        (if c = '\\' then ['\\', '\\'] else [c])))) = escapeChar c := by
    fun_cases escapeChar c
    case case6 hs hq hn hr ht =>
      rw [if_neg hs, replaceChar_singleton hq, replaceChar_singleton hn, replaceChar_singleton hr,
        replaceChar_singleton ht]
    all_goals decide
  rw [escape, String.toList_ofList]
  change replaceChar _ _ (replaceChar _ _ (replaceChar _ _ (replaceChar _ _
    (s.toList.flatMap fun c => if c = '\\' then ['\\', '\\'] else [c])))) = _
  simp only [replaceChar_flatMap, hchar]

theorem quote_toList (s : String) :
    (quote s).toList = '\'' :: (s.toList.flatMap escapeChar ++ ['\'']) := by
  simp [quote, escape_toList]

end SchemaGen
