import SchemaGen.Proofs.Emit.Literal
import SchemaGen.Proofs.Numeric.Numeral
import SchemaGen.Schema.Contents

namespace SchemaGen

open Numeric Text

variable {f : Binary64 → Option Binary64}

/-- A number goes to one with the same text. -/
def KeepsText (f : Binary64 → Option Binary64) (n : Binary64) : Prop :=
  (f n).map Binary64.text = some n.text

/-- The text goes on with nothing that belongs to a number. -/
def EndsText (cs : List Char) : Prop := Idl.Stops isTextChar cs

/-- Whatever follows them, the texts are the same exactly if the numbers keep theirs. -/
def Aligned (f : Binary64 → Option Binary64) (ns : List Binary64) (s t : List Char) : Prop :=
  ∀ ⦃x y⦄, EndsText x → EndsText y →
    (s ++ x = t ++ y ↔ (∀ n ∈ ns, KeepsText f n) ∧ x = y)

namespace Aligned

variable {ns ms : List Binary64} {s t u v : List Char}

theorem same (s : List Char) : Aligned f [] s s := by
  intro x y _ _
  simp

theorem number {n m : Binary64} (h : f n = some m) :
    Aligned f [n] m.text.toList n.text.toList := by
  intro x y hx hy
  have hkeeps : KeepsText f n ↔ m.text = n.text := by simp [KeepsText, h]
  simp only [List.mem_singleton, forall_eq, hkeeps]
  constructor
  · intro he
    have htext := congrArg (List.takeWhile isTextChar) he
    rw [Idl.takeWhile_append_stop m.chars_text hx,
      Idl.takeWhile_append_stop n.chars_text hy] at htext
    rw [htext] at he
    exact ⟨String.toList_inj.mp htext, List.append_cancel_left he⟩
  · rintro ⟨ht, rfl⟩
    rw [ht]

/-- The second parts must not look like the rest of a number. -/
theorem append (h : Aligned f ns s t) (k : Aligned f ms u v)
    (hu : ∀ ⦃x⦄, EndsText x → EndsText (u ++ x)) (hv : ∀ ⦃x⦄, EndsText x → EndsText (v ++ x)) :
    Aligned f (ns ++ ms) (s ++ u) (t ++ v) := by
  intro x y hx hy
  rw [List.append_assoc, List.append_assoc, h (hu hx) (hv hy), k hx hy, List.forall_mem_append,
    and_assoc]

theorem front (h : Aligned f ns s t) (u : List Char) : Aligned f ns (u ++ s) (u ++ t) := by
  intro x y hx hy
  rw [List.append_assoc, List.append_assoc, List.append_right_inj, h hx hy]

theorem back (h : Aligned f ns s t) {c : Char} {u : List Char} (hc : isTextChar c = false) :
    Aligned f ns (s ++ c :: u) (t ++ c :: u) := by
  have hends ⦃x : List Char⦄ (_ : EndsText x) : EndsText (c :: u ++ x) := by
    simp [EndsText, Idl.Stops, hc]
  have ha := h.append (same (c :: u)) hends hends
  rwa [List.append_nil] at ha

/-- Two parts with a separator that no number holds. -/
theorem between (h : Aligned f ns s t) (k : Aligned f ms u v) {c : Char} {w : List Char}
    (hc : isTextChar c = false) : Aligned f (ns ++ ms) (s ++ c :: w ++ u) (t ++ c :: w ++ v) := by
  have hends (u : List Char) ⦃x : List Char⦄ (_ : EndsText x) : EndsText (c :: w ++ u ++ x) := by
    simp [EndsText, Idl.Stops, hc]
  have ha := h.append (k.front (c :: w)) (hends u) (hends v)
  rwa [← List.append_assoc, ← List.append_assoc] at ha

end Aligned

namespace Constant

/-- A value and the same with other numbers are printed alike, in both forms, exactly if the
numbers are. -/
def Alike (f : Binary64 → Option Binary64) (v w : Constant) : Prop :=
  Aligned f v.numbers w.literal.toList v.literal.toList ∧
    Aligned f v.numbers w.text.toList v.text.toList

theorem alike_same {v : Constant} (h : v.numbers = []) : Alike f v v := by
  rw [Alike, h]
  exact ⟨.same _, .same _⟩

theorem computed_ne_text (n : Binary64) (s : String) (x y : List Char) :
    ("[" ++ s ++ "]").toList ++ x ≠ n.text.toList ++ y := by
  intro he
  cases ht : n.text.toList with
  | nil =>
    have hfinite := n.any_isDigit_text
    rw [ht] at hfinite
    cases n with
    | nan => revert ht; decide
    | infinity negative => revert ht; cases negative <;> decide
    | finite _ _ => cases hfinite
  | cons c ds =>
    have hc := n.chars_text c (by rw [ht]; exact List.mem_cons_self)
    have hopen : "[".toList = ['['] := rfl
    rw [ht, String.toList_append, String.toList_append, hopen] at he
    rw [← (List.cons.inj he).1] at hc
    revert hc
    decide

/-- A number that is finite and one that is not stand in different ways, and have different
texts. -/
theorem aligned_numberKey {n m : Binary64} (h : f n = some m)
    (hc : Aligned f [n] ("[" ++ m.text ++ "]").toList ("[" ++ n.text ++ "]").toList) :
    Aligned f [n] (propertyKey (number m)).toList (propertyKey (number n)).toList := by
  have hfinite (hk : ∀ k ∈ [n], KeepsText f k) : m.isFinite = n.isFinite := by
    have heq : m.text = n.text := by simpa [KeepsText, h] using hk
    rw [← m.any_isDigit_text, ← n.any_isDigit_text, heq]
  have hkey (k : Binary64) : propertyKey (number k) =
      if k.isFinite then k.text else "[" ++ k.text ++ "]" := rfl
  rw [hkey, hkey]
  cases hm : m.isFinite <;> cases hn : n.isFinite
  · exact hc
  · refine fun x y _ _ => ⟨fun he => absurd he (computed_ne_text n _ x y), fun hk => ?_⟩
    exact absurd (hfinite hk.1) (by simp [hm, hn])
  · refine fun x y _ _ => ⟨fun he => absurd he.symm (computed_ne_text m _ y x), fun hk => ?_⟩
    exact absurd (hfinite hk.1) (by simp [hm, hn])
  · exact .number h

theorem aligned_key {v w : Constant}
    (h : v.mapNumbers? f = some w) (hl : Aligned f v.numbers w.literal.toList v.literal.toList) :
    Aligned f v.numbers w.propertyKey.toList v.propertyKey.toList := by
  have hcomputed : Aligned f v.numbers ("[" ++ w.literal ++ "]").toList
      ("[" ++ v.literal ++ "]").toList := by
    simp only [String.toList_append]
    exact (hl.front "[".toList).back (by decide)
  cases v with
  | bool _ | null => cases h; exact hcomputed
  | string _ | identifier _ =>
    cases h
    exact .same _
  | number n =>
    obtain ⟨m, hm, rfl⟩ := Option.map_eq_some_iff.mp h
    exact aligned_numberKey hm hcomputed
  | list items =>
    obtain ⟨_, _, rfl⟩ := Option.map_eq_some_iff.mp h
    exact hcomputed
  | map pairs =>
    obtain ⟨_, _, rfl⟩ := Option.map_eq_some_iff.mp h
    exact hcomputed

theorem mapItems?_cons {item : Constant} {rest ws : List Constant}
    (h : mapItems? f (item :: rest) = some ws) :
    ∃ x, item.mapNumbers? f = some x ∧ ∃ xs, mapItems? f rest = some xs ∧ x :: xs = ws := by
  simpa [mapItems?, Option.bind_eq_some_iff] using h

theorem mapPairs?_cons {key value : Constant} {rest ws : List (Constant × Constant)}
    (h : mapPairs? f ((key, value) :: rest) = some ws) :
    ∃ k, key.mapNumbers? f = some k ∧ ∃ v, value.mapNumbers? f = some v ∧
      ∃ xs, mapPairs? f rest = some xs ∧ (k, v) :: xs = ws := by
  simpa [mapPairs?, Option.bind_eq_some_iff] using h

mutual

theorem alike_of_mapNumbers? (v : Constant)
    {w : Constant} (h : v.mapNumbers? f = some w) : Alike f v w := by
  match v with
  | bool _ | string _ | identifier _ | null =>
    cases h
    exact alike_same rfl
  | number n =>
    obtain ⟨m, hm, rfl⟩ := Option.map_eq_some_iff.mp h
    exact ⟨.number hm, .number hm⟩
  | list items =>
    obtain ⟨ws, hws, rfl⟩ := Option.map_eq_some_iff.mp h
    obtain ⟨hl, ht⟩ := aligned_items items hws
    refine ⟨?_, ht⟩
    rw [literal, literal]
    simp only [String.toList_append]
    exact (hl.front "[".toList).back (by decide)
  | map [] =>
    cases h
    exact alike_same rfl
  | map ((key, value) :: rest) =>
    obtain ⟨ws, hws, rfl⟩ := Option.map_eq_some_iff.mp h
    have hl := aligned_pairs ((key, value) :: rest) hws
    obtain ⟨k, -, x, -, xs, -, rfl⟩ := mapPairs?_cons hws
    have hmap : Aligned f (pairNumbers ((key, value) :: rest))
        (literal (map ((k, x) :: xs))).toList (literal (map ((key, value) :: rest))).toList := by
      rw [literal, literal]
      · simp only [String.toList_append]
        exact (hl.front "\x7b ".toList).back (by decide)
      · simp
      · simp
    exact ⟨hmap, hmap⟩

theorem aligned_items (items : List Constant)
    {ws : List Constant} (h : mapItems? f items = some ws) :
    Aligned f (itemNumbers items) (joinWith ", " (literals ws)).toList
        (joinWith ", " (literals items)).toList ∧
      Aligned f (itemNumbers items) (joinWith "," (texts ws)).toList
        (joinWith "," (texts items)).toList := by
  match items with
  | [] =>
    cases h
    exact ⟨.same _, .same _⟩
  | [item] =>
    obtain ⟨x, hx, _, hnil, rfl⟩ := mapItems?_cons h
    cases hnil
    rw [itemNumbers, itemNumbers, List.append_nil]
    exact alike_of_mapNumbers? item hx
  | item :: next :: rest =>
    obtain ⟨x, hx, _, hrest, rfl⟩ := mapItems?_cons h
    obtain ⟨hl, ht⟩ := alike_of_mapNumbers? item hx
    obtain ⟨hls, hts⟩ := aligned_items (next :: rest) hrest
    obtain ⟨y, -, ys, -, rfl⟩ := mapItems?_cons hrest
    simp only [literals, texts, joinWith, String.toList_append] at hls hts ⊢
    exact ⟨hl.between hls (by decide), ht.between hts (by decide)⟩

theorem aligned_pairs (pairs : List (Constant × Constant)) {ws : List (Constant × Constant)}
    (h : mapPairs? f pairs = some ws) :
    Aligned f (pairNumbers pairs) (joinWith ", " (entryLiterals ws)).toList
      (joinWith ", " (entryLiterals pairs)).toList := by
  match pairs with
  | [] =>
    cases h
    exact .same _
  | (key, value) :: rest =>
    obtain ⟨k, hk, x, hx, xs, hxs, rfl⟩ := mapPairs?_cons h
    have hkey := aligned_key hk (alike_of_mapNumbers? key hk).1
    have hvalue := (alike_of_mapNumbers? value hx).1
    have hentry := hkey.between hvalue (c := ':') (w := [' ']) (by decide)
    match rest, hxs with
    | [], hxs =>
      cases hxs
      simp only [entryLiterals, joinWith, String.toList_append, pairNumbers, List.append_nil]
      exact hentry
    | next :: rest, hxs =>
      have hrest := aligned_pairs (next :: rest) hxs
      obtain ⟨_, -, _, -, ys, -, rfl⟩ := mapPairs?_cons hxs
      simp only [entryLiterals, joinWith, String.toList_append] at hrest ⊢
      exact hentry.between hrest (by decide)

end

end Constant
end SchemaGen
