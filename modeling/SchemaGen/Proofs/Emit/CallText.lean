import SchemaGen.Proofs.Emit.Literal

namespace SchemaGen

open Text

namespace CallTree

/- The text of a tree, of its members and of its properties, with a qualifier before the name of
every call. -/
mutual

def text (p : String) : CallTree → String
  | leaf kind => p ++ (kind.name ++ "()")
  | array element => p ++ "array(" ++ text p element ++ ")"
  | set element => p ++ "set(" ++ text p element ++ ")"
  | map key value => p ++ "record(" ++ text p key ++ ", " ++ text p value ++ ")"
  | object properties => p ++ SchemaType.objectText (propertyTexts p properties)
  | union members => SchemaType.unionText p (memberTexts p members)
  | default inner literal => text p inner ++ ".default(" ++ literal ++ ")"
  | optional inner => text p inner ++ ".optional()"

def memberTexts (p : String) : List CallTree → List String
  | [] => []
  | m :: rest => text p m :: memberTexts p rest

def propertyTexts (p : String) : List (String × CallTree) → List String
  | [] => []
  | (key, t) :: rest => (objectKey key ++ ": " ++ text p t) :: propertyTexts p rest

end

/-- The literals of defaults are closed. -/
inductive Sealed : CallTree → Prop where
  | leaf (kind : Leaf) : Sealed (.leaf kind)
  | array {t : CallTree} (h : Sealed t) : Sealed (.array t)
  | set {t : CallTree} (h : Sealed t) : Sealed (.set t)
  | map {k v : CallTree} (hk : Sealed k) (hv : Sealed v) : Sealed (.map k v)
  | object {ps : List (String × CallTree)} (h : ∀ p ∈ ps, Sealed p.2) : Sealed (.object ps)
  | union {ms : List CallTree} (h : ∀ m ∈ ms, Sealed m) : Sealed (.union ms)
  | default {t : CallTree} {literal : String} (h : Sealed t) (hl : Closed literal.toList) :
      Sealed (.default t literal)
  | optional {t : CallTree} (h : Sealed t) : Sealed (.optional t)

/-- What may follow a call: a default or the mark of an optional type. -/
inductive Mark where
  | default (literal : String)
  | optional

/-- The call of a tree with the marks taken off. -/
inductive Call : CallTree → Prop where
  | leaf (kind : Leaf) : Call (.leaf kind)
  | array {t : CallTree} (h : Sealed t) : Call (.array t)
  | set {t : CallTree} (h : Sealed t) : Call (.set t)
  | map {k v : CallTree} (hk : Sealed k) (hv : Sealed v) : Call (.map k v)
  | object {ps : List (String × CallTree)} (h : ∀ p ∈ ps, Sealed p.2) : Call (.object ps)
  | union {ms : List CallTree} (h : ∀ m ∈ ms, Sealed m) : Call (.union ms)

def Mark.on (t : CallTree) : Mark → CallTree
  | default literal => .default t literal
  | optional => .optional t

def Mark.text : Mark → List Char
  | default literal => ['.', 'd', 'e', 'f', 'a', 'u', 'l', 't', '('] ++ (literal.toList ++ [')'])
  | optional => ['.', 'o', 'p', 't', 'i', 'o', 'n', 'a', 'l', '(', ')']

def Mark.Sealed : Mark → Prop
  | default literal => Closed literal.toList
  | optional => True

/-- The text goes on with no mark. -/
def Ends (cs : List Char) : Prop := cs.head? ≠ some '.'

theorem mark_unique {m n : Mark} {r s : List Char} (hm : m.Sealed) (hn : n.Sealed)
    (h : m.text ++ r = n.text ++ s) : m = n ∧ r = s := by
  cases m with
  | default l =>
    cases n with
    | default k =>
      simp only [Mark.text, List.append_assoc, List.cons_append, List.nil_append,
        List.cons.injEq, true_and] at h
      obtain ⟨hl, hr⟩ := Closed.unique hm hn h
      exact ⟨by rw [String.toList_inj.mp hl], hr⟩
    | optional => simp [Mark.text] at h
  | optional =>
    cases n with
    | default k => simp [Mark.text] at h
    | optional => exact ⟨rfl, List.append_cancel_left h⟩

theorem mark_head (m : Mark) (r : List Char) : (m.text ++ r).head? = some '.' := by
  cases m <;> simp [Mark.text]

theorem marks_unique {ms ns : List Mark} {r s : List Char} (hm : ∀ m ∈ ms, m.Sealed)
    (hn : ∀ m ∈ ns, m.Sealed) (hr : Ends r) (hs : Ends s)
    (h : ms.flatMap Mark.text ++ r = ns.flatMap Mark.text ++ s) : ms = ns ∧ r = s := by
  induction ms generalizing ns with
  | nil =>
    cases ns with
    | nil => exact ⟨rfl, h⟩
    | cons n ns =>
      rw [List.flatMap_cons, List.append_assoc] at h
      have hh := congrArg List.head? h
      rw [mark_head] at hh
      exact absurd hh hr
  | cons m ms ih =>
    rw [List.flatMap_cons, List.append_assoc] at h
    cases ns with
    | nil =>
      have hh := congrArg List.head? h
      rw [mark_head] at hh
      exact absurd hh.symm hs
    | cons n ns =>
      rw [List.flatMap_cons, List.append_assoc] at h
      obtain ⟨rfl, ht⟩ := mark_unique (hm m (by simp)) (hn n (by simp)) h
      obtain ⟨rfl, hrs⟩ := ih (fun x hx => hm x (by simp [hx])) (fun x hx => hn x (by simp [hx])) ht
      exact ⟨rfl, hrs⟩

theorem exists_call {t : CallTree} (h : Sealed t) :
    ∃ (a : CallTree) (ms : List Mark), t = ms.foldl Mark.on a ∧ Call a ∧ ∀ m ∈ ms, m.Sealed := by
  induction h with
  | leaf kind => exact ⟨_, [], rfl, .leaf kind, by simp⟩
  | array h _ => exact ⟨_, [], rfl, .array h, by simp⟩
  | set h _ => exact ⟨_, [], rfl, .set h, by simp⟩
  | map hk hv _ _ => exact ⟨_, [], rfl, .map hk hv, by simp⟩
  | object h _ => exact ⟨_, [], rfl, .object h, by simp⟩
  | union h _ => exact ⟨_, [], rfl, .union h, by simp⟩
  | @default t literal _ hl ih =>
    obtain ⟨a, ms, rfl, ha, hm⟩ := ih
    refine ⟨a, ms ++ [.default literal], by simp [Mark.on], ha, ?_⟩
    intro m h
    rcases List.mem_append.mp h with h | h
    · exact hm m h
    · rw [List.mem_singleton.mp h]
      exact hl
  | @optional t _ ih =>
    obtain ⟨a, ms, rfl, ha, hm⟩ := ih
    refine ⟨a, ms ++ [.optional], by simp [Mark.on], ha, ?_⟩
    intro m h
    rcases List.mem_append.mp h with h | h
    · exact hm m h
    · rw [List.mem_singleton.mp h]
      trivial

theorem text_marked (p : String) (a : CallTree) (ms : List Mark) :
    (text p (ms.foldl Mark.on a)).toList = (text p a).toList ++ ms.flatMap Mark.text := by
  induction ms generalizing a with
  | nil => simp
  | cons m ms ih =>
    rw [List.foldl_cons, ih, List.flatMap_cons]
    cases m <;> simp [Mark.on, Mark.text, text]

theorem quotedRest_escapeChar (c : Char) (cs : List Char) :
    Idl.quotedRest '\'' (escapeChar c ++ cs) =
      (Idl.quotedRest '\'' cs).map fun (text, tail) => (c :: text, tail) := by
  unfold escapeChar
  split
  case h_6 hs hq _ _ _ =>
    rw [List.singleton_append, Idl.quotedRest_cons _ hs, if_neg hq]
  all_goals rfl

/-- Quoted text is read back. -/
theorem quotedRest_flatMap (cs rest : List Char) :
    Idl.quotedRest '\'' (cs.flatMap escapeChar ++ '\'' :: rest) = some (cs, rest) := by
  induction cs with
  | nil => rfl
  | cons c cs ih =>
    rw [List.flatMap_cons, List.append_assoc, quotedRest_escapeChar, ih]
    rfl

theorem quote_unique {s t : String} {x y : List Char}
    (h : (quote s).toList ++ x = (quote t).toList ++ y) : s = t ∧ x = y := by
  simp only [quote_toList, List.cons_append, List.append_assoc, List.nil_append, List.cons.injEq,
    true_and] at h
  have hq := congrArg (Idl.quotedRest '\'') h
  rw [quotedRest_flatMap, quotedRest_flatMap, Option.some.injEq, Prod.mk.injEq] at hq
  exact ⟨String.toList_inj.mp hq.1, hq.2⟩

/-- No quoted text starts like a bare name. -/
theorem bareName_ne_quote {k t : String} {x y : List Char} (h : isBareName k = true) :
    k.toList ++ x ≠ (quote t).toList ++ y := by
  intro he
  have hall := bareName_chars h
  unfold isBareName at h
  split at h
  · cases h
  · next c rest hk =>
    rw [hk, quote_toList, List.cons_append, List.cons_append, List.cons.injEq] at he
    have hc := hall c (by rw [hk]; exact List.mem_cons_self)
    rw [he.1] at hc
    exact absurd hc (by decide)

/-- A key and what follows its colon are told apart. -/
theorem key_unique {k l : String} {x y : List Char}
    (h : (objectKey k).toList ++ ':' :: x = (objectKey l).toList ++ ':' :: y) :
    k = l ∧ x = y := by
  unfold objectKey at h
  have stop (cs : List Char) : Idl.Stops isIdentifierRest (':' :: cs) := by
    have hcolon : isIdentifierRest ':' = false := by decide
    simp [Idl.Stops, hcolon]
  split at h
  · next hk =>
    split at h
    · next hl =>
      have ht := congrArg (List.takeWhile isIdentifierRest) h
      rw [Idl.takeWhile_append_stop (bareName_chars hk) (stop x),
        Idl.takeWhile_append_stop (bareName_chars hl) (stop y)] at ht
      rw [ht, List.append_cancel_left_eq, List.cons.injEq] at h
      exact ⟨String.toList_inj.mp ht, h.2⟩
    · exact absurd h (bareName_ne_quote hk)
  · split at h
    · next hl => exact absurd h.symm (bareName_ne_quote hl)
    · obtain ⟨rfl, hx⟩ := quote_unique h
      exact ⟨rfl, (List.cons.inj hx).2⟩

/-- What follows the first of several texts with a comma between them. -/
def rowTail (texts : List String) : List Char := texts.flatMap fun t => ',' :: ' ' :: t.toList

theorem joinWith_toList (t : String) (texts : List String) :
    (joinWith ", " (t :: texts)).toList = t.toList ++ rowTail texts := by
  induction texts generalizing t with
  | nil => simp [joinWith, rowTail]
  | cons u texts ih =>
    rw [joinWith, String.toList_append, ih]
    simp [rowTail]

/-- Whatever follows an item, its text and the rest are told apart. -/
def Told {α : Type} (f : α → String) (xs ys : List α) : Prop :=
  ∀ x ∈ xs, ∀ y ∈ ys, ∀ r s, Ends r → Ends s → (f x).toList ++ r = (f y).toList ++ s →
    x = y ∧ r = s

variable {α : Type} {f : α → String} {close : Char}

theorem rowTail_ends (xs : List String) (r : List Char) (hc : close ≠ '.') :
    Ends (rowTail xs ++ close :: r) := by
  cases xs <;> simp [rowTail, Ends, hc]

theorem rowTail_unique {xs ys : List α} {r s : List Char} (hcomma : close ≠ ',')
    (hdot : close ≠ '.') (ht : Told f xs ys)
    (h : rowTail (xs.map f) ++ close :: r = rowTail (ys.map f) ++ close :: s) :
    xs = ys ∧ r = s := by
  induction xs generalizing ys with
  | nil =>
    cases ys with
    | nil => exact ⟨rfl, (List.cons.inj h).2⟩
    | cons y ys => simp [rowTail, hcomma] at h
  | cons x xs ih =>
    cases ys with
    | nil => simp [rowTail, Ne.symm hcomma] at h
    | cons y ys =>
      simp only [rowTail, List.map_cons, List.flatMap_cons, List.cons_append, List.append_assoc,
        List.cons.injEq, true_and] at h
      obtain ⟨rfl, hrest⟩ := ht x (by simp) y (by simp) _ _ (rowTail_ends _ r hdot)
        (rowTail_ends _ s hdot) h
      have htail : Told f xs ys := fun a ha b hb => ht a (by simp [ha]) b (by simp [hb])
      obtain ⟨rfl, hrs⟩ := ih htail hrest
      exact ⟨rfl, hrs⟩

theorem row_unique {x y : α} {xs ys : List α} {r s : List Char} (hcomma : close ≠ ',')
    (hdot : close ≠ '.') (ht : Told f (x :: xs) (y :: ys))
    (h : (joinWith ", " ((x :: xs).map f)).toList ++ close :: r =
      (joinWith ", " ((y :: ys).map f)).toList ++ close :: s) :
    x :: xs = y :: ys ∧ r = s := by
  rw [List.map_cons, List.map_cons, joinWith_toList, joinWith_toList, List.append_assoc,
    List.append_assoc] at h
  obtain ⟨rfl, hrest⟩ := ht x (by simp) y (by simp) _ _ (rowTail_ends _ r hdot)
    (rowTail_ends _ s hdot) h
  have htail : Told f xs ys := fun a ha b hb => ht a (by simp [ha]) b (by simp [hb])
  obtain ⟨rfl, hrs⟩ := rowTail_unique hcomma hdot htail hrest
  exact ⟨rfl, hrs⟩

end CallTree
end SchemaGen
